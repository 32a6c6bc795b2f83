import Mathlib

/-!
# The shapes a PostgreSQL fold accepts

The change stream records a description of a table with the first change it sees under a new
shape. A fold of a snapshot checks the descriptions from its floor on, and the one in effect at the
floor, before it uses the events of the table's name.
-/

namespace Dbtrail.PgShape

open List

structure PGColumn : Type where
  name : String
  typeOID : ℕ
  typeMod : ℤ
  deriving DecidableEq, Repr

structure RelationColumn : Type extends PGColumn where
  isGenerated : Bool
  isPK : Bool
  deriving DecidableEq, Repr

/-- `inferred` is whether DDL inference was on when the shape was seen (it has a time). -/
structure PGShape : Type where
  snapshotID : ℕ
  oid : ℕ
  name : String × String
  seenLSN : ℕ
  inferred : Bool
  columns : List RelationColumn
  deriving DecidableEq, Repr

/-- The shape a baseline records. -/
structure PGRelation : Type where
  oid : ℕ
  columns : List PGColumn
  distinct : (columns.map PGColumn.name).Nodup

/-! ## Loading -/

/-- The versions from the last that `isBase` on, or all. -/
def fromBase (isBase : PGShape → Bool) : List PGShape → List PGShape
  | [] => []
  | v :: rest => if rest.any isBase then fromBase isBase rest else v :: rest

def versionBefore (a b : PGShape) : Prop :=
  a.seenLSN < b.seenLSN ∨ a.seenLSN = b.seenLSN ∧ a.snapshotID ≤ b.snapshotID

instance : DecidableRel versionBefore := fun _ _ => inferInstanceAs (Decidable (_ ∨ _))

def versionsOf (shapes : List PGShape) (oid : ℕ) : List PGShape :=
  (shapes.filter (·.oid = oid)).insertionSort versionBefore

def isBase (floor : ℕ) (v : PGShape) : Bool :=
  (floor = 0 || v.seenLSN < floor) && !(v.seenLSN != 0 && !v.inferred)

/-- A shape without an OID, the newest of its name. -/
def isNewestLegacy (shapes : List PGShape) (s : PGShape) : Bool :=
  s.oid = 0 && shapes.all fun t => t.name ≠ s.name || t.snapshotID < s.snapshotID ||
    (t.oid = 0 && t.snapshotID = s.snapshotID)

def latestPGShapes (shapes : List PGShape) (floor : ℕ) : List PGShape :=
  let identified := ((shapes.map PGShape.oid).filter (· ≠ 0)).dedup.flatMap fun oid =>
    if floor = 0 then (versionsOf shapes oid).getLast?.toList
    else fromBase (isBase floor) (versionsOf shapes oid)
  (identified ++ shapes.filter (isNewestLegacy shapes)).insertionSort
    fun a b => a.snapshotID ≤ b.snapshotID

/-! ## The check -/

structure ShapeDiff : Type where
  added : List String
  dropped : List String
  retyped : List String
  deriving DecidableEq, Repr

def wanted (base : List PGColumn) (name : String) : Option PGColumn :=
  base.reverse.find? (·.name = name)

def pgShapeDiff (base : List PGColumn) (seen : List RelationColumn) : ShapeDiff :=
  let streamed := seen.filter (!·.isGenerated)
  { added := (streamed.filter fun c => (wanted base c.name).isNone).map (·.name)
    dropped := (base.filter fun b => streamed.all (·.name ≠ b.name)).map (·.name)
    retyped := (streamed.filter fun c => (wanted base c.name).any fun w =>
      w.typeOID ≠ c.typeOID || w.typeMod ≠ c.typeMod).map (·.name) }

def pgKeyOf (columns : List RelationColumn) : List String :=
  (columns.filter (·.isPK)).map (·.name)

inductive Refusal : Type where
  | noLSN
  | otherTable (oid : ℕ)
  | renamed (name : String × String)
  | columns (diff : ShapeDiff)
  | keyChanged (before after : List String)
  deriving DecidableEq, Repr

section Check

variable (shapes : List PGShape) (name : String × String) (rel : PGRelation) (floor cut : ℕ)

def inEffectAtFloor (s : PGShape) : Bool :=
  let other := s.oid ≠ rel.oid ∧ s.oid ≠ 0
  shapes.all fun q =>
    decide (floor ≤ q.seenLSN ∨ q.seenLSN ≤ s.seenLSN ∨
      ¬(¬other ∧ (q.oid = rel.oid ∨ q.oid = 0 ∧ q.name = name) ∨
        other ∧ (q.oid = rel.oid ∨ q.oid = s.oid)))

def isMine (s : PGShape) : Prop := s.oid = rel.oid ∨ s.oid = 0 ∧ s.name = name

instance (s : PGShape) : Decidable (isMine name rel s) := inferInstanceAs (Decidable (_ ∨ _))

/-- Whether the loop compares a shape, by its three `continue`s. -/
def Compared (s : PGShape) : Prop :=
  ¬(cut ≤ s.seenLSN ∧ s.seenLSN ≠ 0) ∧ (isMine name rel s ∨ s.name = name) ∧
    ¬(s.seenLSN < floor ∧ inEffectAtFloor shapes name rel floor s = false)

instance (s : PGShape) : Decidable (Compared shapes name rel floor cut s) :=
  inferInstanceAs (Decidable (_ ∧ _))

/-- The loop of `checkPGShapeKey`, with the key so far. -/
def checkFrom (key : Option (List String)) : List PGShape → Except Refusal (Option (List String))
  | [] => .ok key
  | s :: rest =>
      if ¬Compared shapes name rel floor cut s then checkFrom key rest
      else if ¬isMine name rel s then .error (.otherTable s.oid)
      else if s.name ≠ name then .error (.renamed s.name)
      else if pgShapeDiff rel.columns s.columns ≠ ⟨[], [], []⟩ then
        .error (.columns (pgShapeDiff rel.columns s.columns))
      else
        match key with
        | some k =>
            if pgKeyOf s.columns ≠ k then .error (.keyChanged k (pgKeyOf s.columns))
            else checkFrom key rest
        | none => checkFrom (some (pgKeyOf s.columns)) rest

def checkPGShapeKey : Except Refusal (Option (List String)) :=
  checkFrom shapes name rel floor cut none shapes

/-- What a fold does before it reads events: `checkPGFoldable` refuses a snapshot without an LSN,
and the shapes loaded for the floor are checked. -/
def foldKey : Except Refusal (Option (List String)) :=
  if floor = 0 then .error .noLSN
  else checkPGShapeKey (latestPGShapes shapes floor) name rel floor cut

end Check

/-! ## What a passed check says -/

variable {l : List PGShape} {p : PGShape → Bool}

theorem fromBase_subset : fromBase p l ⊆ l := by
  induction l with
  | nil => exact fun _ => id
  | cons v rest ih =>
    rw [fromBase]
    split
    · exact fun q member => mem_cons_of_mem v (ih member)
    · exact fun _ => id

theorem exists_fromBase (some_ : l.any p = true) : ∃ q ∈ fromBase p l, p q = true := by
  induction l with
  | nil => cases some_
  | cons v rest ih =>
    rw [fromBase]
    split
    next later => exact ih later
    next => exact any_eq_true.mp some_

/-- A version that is cut off is before a base that is kept. -/
theorem mem_fromBase {r : PGShape → PGShape → Prop} (sorted : l.Pairwise r) {v : PGShape}
    (member : v ∈ l) :
    v ∈ fromBase p l ∨ ∃ q ∈ fromBase p l, p q = true ∧ r v q := by
  induction l with
  | nil => cases member
  | cons a rest ih =>
    rw [pairwise_cons] at sorted
    rw [fromBase]
    split
    next later =>
      rcases mem_cons.mp member with rfl | inside
      · obtain ⟨q, kept, base⟩ := exists_fromBase later
        exact .inr ⟨q, kept, base, sorted.1 q (fromBase_subset kept)⟩
      · exact ih sorted.2 inside
    next => exact .inl member

theorem versionsOf_pairwise (shapes : List PGShape) (oid : ℕ) :
    (versionsOf shapes oid).Pairwise versionBefore := by
  have : Std.Total versionBefore := ⟨fun a b => by unfold versionBefore; omega⟩
  have : IsTrans PGShape versionBefore := ⟨fun a b c => by unfold versionBefore; omega⟩
  exact pairwise_insertionSort versionBefore _

section Passed

variable {shapes : List PGShape} {name : String × String} {rel : PGRelation} {floor cut : ℕ}
  {key : Option (List String)} {columns : List RelationColumn}

theorem mem_of_mem_latest {s : PGShape} (positive : floor ≠ 0)
    (member : s ∈ latestPGShapes shapes floor) : s ∈ shapes := by
  simp only [latestPGShapes, mem_insertionSort, mem_append, mem_flatMap,
    if_neg positive] at member
  rcases member with ⟨oid, -, kept⟩ | legacy
  · have := fromBase_subset kept
    rw [versionsOf, mem_insertionSort] at this
    exact (mem_filter.mp this).1
  · exact (mem_filter.mp legacy).1

/-- A shape is loaded unless a later one of its table was seen before the floor. -/
theorem mem_latest {s : PGShape} (positive : floor ≠ 0) (member : s ∈ shapes)
    (identified : s.oid ≠ 0) (unique : ∀ q ∈ shapes, q.snapshotID = s.snapshotID → q = s)
    (newest : ∀ q ∈ shapes, q.oid = s.oid → q.seenLSN < floor → s.seenLSN < floor →
      q.snapshotID ≤ s.snapshotID ∧ q.seenLSN ≤ s.seenLSN) :
    s ∈ latestPGShapes shapes floor := by
  simp only [latestPGShapes, mem_insertionSort, mem_append, mem_flatMap,
    if_neg positive]
  refine .inl ⟨s.oid, by simpa using ⟨⟨s, member, rfl⟩, identified⟩, ?_⟩
  have inside : s ∈ versionsOf shapes s.oid := by simpa [versionsOf] using member
  rcases mem_fromBase (p := isBase floor) (versionsOf_pairwise shapes s.oid) inside with
    kept | ⟨q, kept, base, before⟩
  · exact kept
  · have there := fromBase_subset kept
    rw [versionsOf, mem_insertionSort, mem_filter, decide_eq_true_eq] at there
    have early : q.seenLSN < floor := by
      simp only [isBase, Bool.and_eq_true, Bool.or_eq_true, decide_eq_true_eq] at base
      exact base.1.resolve_left positive
    have order := newest q there.1 there.2 early
    unfold versionBefore at before
    rw [unique q there.1 (by omega)] at kept
    exact kept

theorem checkFrom_ok {rest : List PGShape} {result : Option (List String)}
    (passed : checkFrom shapes name rel floor cut key rest = .ok result) :
    (∀ k ∈ key, result = some k) ∧ ∀ s ∈ rest, Compared shapes name rel floor cut s →
      isMine name rel s ∧ s.name = name ∧ pgShapeDiff rel.columns s.columns = ⟨[], [], []⟩ ∧
        result = some (pgKeyOf s.columns) := by
  induction rest generalizing key with
  | nil => exact ⟨fun k here => by rw [← Except.ok.inj passed]; exact here, nofun⟩
  | cons a rest ih =>
    rw [checkFrom.eq_def] at passed
    dsimp only at passed
    split at passed
    next skipped =>
      obtain ⟨kept, each⟩ := ih passed
      exact ⟨kept, forall_mem_cons.mpr ⟨fun compared => absurd compared skipped, each⟩⟩
    next =>
      split at passed
      next => cases passed
      next mine =>
        split at passed
        next => cases passed
        next named =>
          split at passed
          next => cases passed
          next same =>
            have step {k : List String} (kept : result = some k) (eq : k = pgKeyOf a.columns) :
                isMine name rel a ∧ a.name = name ∧
                  pgShapeDiff rel.columns a.columns = ⟨[], [], []⟩ ∧
                  result = some (pgKeyOf a.columns) :=
              ⟨not_not.mp mine, not_not.mp named, not_not.mp same, kept.trans (congrArg some eq)⟩
            cases key with
            | some k =>
              dsimp only at passed
              split at passed
              next => cases passed
              next equal =>
                obtain ⟨kept, each⟩ := ih passed
                exact ⟨kept, forall_mem_cons.mpr
                  ⟨fun _ => step (kept k rfl) (not_not.mp equal).symm, each⟩⟩
            | none =>
              obtain ⟨kept, each⟩ := ih passed
              exact ⟨nofun, forall_mem_cons.mpr ⟨fun _ => step (kept _ rfl) rfl, each⟩⟩

/-- `d` describes a table's shape and is the last description of the table, and of any table under
its name, before `lsn`. -/
structure Describes (shapes : List PGShape) (d : PGShape) (lsn oid : ℕ) (name : String × String)
    (columns : List RelationColumn) : Prop where
  member : d ∈ shapes
  seen : d.seenLSN ≤ lsn
  same : d.oid = oid ∧ d.name = name ∧ d.columns = columns
  last : ∀ q ∈ shapes, q.oid = oid ∨ q.name = name →
    q.snapshotID ≤ d.snapshotID ∧ q.seenLSN ≤ d.seenLSN ∨ lsn ≤ q.seenLSN

/-- What every set of recorded shapes has. -/
structure Recorded (shapes : List PGShape) : Prop where
  identified : ∀ q ∈ shapes, q.oid ≠ 0
  unique : ∀ q ∈ shapes, ∀ s ∈ shapes, q.snapshotID = s.snapshotID → q = s

/-- A shape described before the floor and held at a later LSN was in effect at the floor, or the
check refused. -/
theorem inEffect_of_describes (recorded : Recorded shapes) (positive : floor ≠ 0) {d : PGShape}
    {oid lsn : ℕ} (described : Describes shapes d lsn oid name columns) (from_ : floor ≤ lsn)
    (upTo : lsn < cut)
    (passed : checkPGShapeKey (latestPGShapes shapes floor) name rel floor cut = .ok key) :
    inEffectAtFloor (latestPGShapes shapes floor) name rel floor d = true := by
  set loaded := latestPGShapes shapes floor with hLoaded
  have inShapes {q : PGShape} (member : q ∈ loaded) : q ∈ shapes :=
    mem_of_mem_latest positive member
  by_contra out
  simp only [inEffectAtFloor, Bool.not_eq_true, all_eq_false, decide_eq_true_eq] at out
  obtain ⟨q, member, newer⟩ := out
  push Not at newer
  obtain ⟨early, after, which⟩ := newer
  have notSelf : q.oid ≠ oid := fun eq =>
    by
    have := described.last q (inShapes member) (.inl eq)
    omega
  have mine : q.oid = rel.oid := by
    rcases which with ⟨-, here⟩ | ⟨-, here⟩
    · exact here.resolve_right fun legacy => recorded.identified q (inShapes member) legacy.1
    · exact here.resolve_right fun eq => notSelf (eq.trans described.same.1)
  -- the newest of the snapshot's own shapes before the floor is compared, and has the name
  obtain ⟨m, inside, newest⟩ := Finset.exists_max_image
    (loaded.filter fun s => s.oid = rel.oid ∧ s.seenLSN < floor).toFinset PGShape.seenLSN
    ⟨q, by simpa using ⟨member, mine, early⟩⟩
  simp only [mem_toFinset, mem_filter, decide_eq_true_eq] at inside newest
  obtain ⟨there, own, before⟩ := inside
  have effective : inEffectAtFloor loaded name rel floor m = true := by
    simp only [inEffectAtFloor, all_eq_true, decide_eq_true_eq]
    intro s sThere
    by_contra wrong
    push Not at wrong
    have identified := recorded.identified s (inShapes sThere)
    have sOwn : s.oid = rel.oid := by
      rcases wrong.2.2 with ⟨-, here⟩ | ⟨other, -⟩
      · exact here.resolve_right fun legacy => identified legacy.1
      · exact absurd own other.1
    have := newest s ⟨sThere, sOwn, wrong.1⟩
    omega
  have compared := (checkFrom_ok passed).2 m there
    ⟨by omega, .inl (.inl own), fun no => nomatch no.2.symm.trans effective⟩
  have qLe := newest q ⟨member, mine, early⟩
  have := described.last m (inShapes there) (.inr compared.2.1)
  omega

/-- The columns are the snapshot's, generated ones aside. -/
def SameColumns (base : List PGColumn) (columns : List RelationColumn) : Prop :=
  ∀ b, b ∈ base ↔ ∃ c ∈ columns, c.isGenerated = false ∧ c.toPGColumn = b

theorem sameColumns_of_diff (same : pgShapeDiff rel.columns columns = ⟨[], [], []⟩) :
    SameColumns rel.columns columns := by
  simp only [pgShapeDiff, ShapeDiff.mk.injEq, map_eq_nil_iff, filter_eq_nil_iff,
    mem_filter, Bool.not_eq_true'] at same
  obtain ⟨added, dropped, retyped⟩ := same
  have into {c : RelationColumn} (member : c ∈ columns) (streamed : c.isGenerated = false) :
      c.toPGColumn ∈ rel.columns := by
    have known := added c ⟨member, streamed⟩
    have typed := retyped c ⟨member, streamed⟩
    cases found : wanted rel.columns c.name with
    | none => simp [found] at known
    | some w =>
      have named : w.name = c.name := by simpa using find?_some found
      have there := mem_of_find?_eq_some found
      simp [found] at typed
      have eq : w = c.toPGColumn := by
        cases w
        simp_all
      exact eq ▸ mem_reverse.mp there
  intro b
  constructor
  · intro member
    have kept := dropped b member
    simp only [all_eq_true, mem_filter, Bool.not_eq_true', decide_eq_true_eq, not_forall,
      not_not] at kept
    obtain ⟨c, ⟨there, streamed⟩, named⟩ := kept
    exact ⟨c, there, streamed,
      inj_on_of_nodup_map rel.distinct (into there streamed) member named⟩
  · rintro ⟨c, member, streamed, rfl⟩
    exact into member streamed

/-- An event whose shape was described is of the snapshot's table, columns and key if the check
passes. -/
theorem own_of_describes (recorded : Recorded shapes) {d : PGShape} {oid lsn : ℕ}
    (described : Describes shapes d lsn oid name columns) (from_ : floor ≤ lsn) (upTo : lsn < cut)
    (passed : foldKey shapes name rel floor cut = .ok key) :
    oid = rel.oid ∧ SameColumns rel.columns columns ∧ key = some (pgKeyOf columns) := by
  unfold foldKey at passed
  split at passed
  next => cases passed
  next positive =>
    have identified := recorded.identified d described.member
    have seen := described.seen
    have loaded : d ∈ latestPGShapes shapes floor :=
      mem_latest positive described.member identified
        (fun q member eq => recorded.unique q member d described.member eq)
        fun q member eq early _ =>
          (described.last q member (.inl (eq.trans described.same.1))).resolve_right (by omega)
    obtain ⟨mine, -, same, keyed⟩ := (checkFrom_ok passed).2 d loaded
      ⟨by omega, .inr described.same.2.1, fun no => nomatch no.2.symm.trans
        (inEffect_of_describes recorded positive described from_ upTo passed)⟩
    obtain ⟨rfl, -, rfl⟩ := described.same
    exact ⟨mine.resolve_right fun legacy => identified legacy.1, sameColumns_of_diff same, keyed⟩

end Passed

/-! ## The timeline -/

/-- A time in which a table, which is its OID, keeps one shape: no alter and no rename. It goes from
its first change to its last, by their places in the stream. -/
structure Period : Type where
  oid : ℕ
  name : String × String
  columns : List RelationColumn
  inferred : Bool
  first : ℕ
  last : ℕ
  deriving DecidableEq, Repr

/-- The changes of one database, in the order of the stream, which is that of their transactions'
LSNs. A table has one shape at a time, and a name one table. -/
structure Timeline : Type where
  lsn : ℕ → ℕ
  mono : Monotone lsn
  periods : List Period
  identified : ∀ p ∈ periods, p.oid ≠ 0
  ordered : ∀ p ∈ periods, p.first ≤ p.last
  firsts : ∀ p ∈ periods, ∀ q ∈ periods, p.first = q.first → p = q
  apart : ∀ p ∈ periods, ∀ q ∈ periods, p.oid = q.oid ∨ p.name = q.name →
    p = q ∨ p.last < q.first ∨ q.last < p.first

namespace Timeline

variable (t : Timeline)

/-- The description recorded with the first change of a period. -/
def shapeOf (p : Period) : PGShape :=
  { snapshotID := p.first, oid := p.oid, name := p.name, seenLSN := t.lsn p.first,
    inferred := p.inferred, columns := p.columns }

def shapes : List PGShape := t.periods.map t.shapeOf

theorem recorded : Recorded t.shapes := by
  constructor
  · exact forall_mem_map.mpr t.identified
  · intro q member s member'
    obtain ⟨p, there, rfl⟩ := mem_map.mp member
    obtain ⟨p', there', rfl⟩ := mem_map.mp member'
    intro same
    rw [t.firsts p there p' there' same]

/-- A change of a period finds the period's description the last one. -/
theorem describes {p : Period} (member : p ∈ t.periods) {x : ℕ} (after : p.first ≤ x)
    (before : x ≤ p.last) :
    Describes t.shapes (t.shapeOf p) (t.lsn x) p.oid p.name p.columns where
  member := List.mem_map_of_mem member
  seen := t.mono after
  same := ⟨rfl, rfl, rfl⟩
  last := by
    intro q inside sameTable
    obtain ⟨p', there, rfl⟩ := mem_map.mp inside
    rcases t.apart p' there p member sameTable with rfl | earlier | later
    · exact .inl ⟨le_rfl, le_rfl⟩
    · have first : p'.first ≤ p.first := (t.ordered p' there).trans earlier.le
      exact .inl ⟨first, t.mono first⟩
    · exact .inr (t.mono (before.trans later.le))

end Timeline

/-- If the check passes on the shapes loaded for the floor, every change of the table's name with
an LSN from the floor up to the cut was captured from the snapshot's table, under the snapshot's
columns and under one primary key. -/
theorem fold_uses_own (t : Timeline) (name : String × String) (rel : PGRelation) (floor cut : ℕ)
    (key : Option (List String)) (passed : foldKey t.shapes name rel floor cut = .ok key) :
    ∀ p ∈ t.periods, p.name = name → ∀ x, p.first ≤ x → x ≤ p.last → floor ≤ t.lsn x →
      t.lsn x < cut →
      p.oid = rel.oid ∧ SameColumns rel.columns p.columns ∧ key = some (pgKeyOf p.columns) := by
  rintro p member rfl x after before from_ upTo
  exact own_of_describes t.recorded (t.describes member after before) from_ upTo passed

/-- A table with OID 7 gave up the name `public.t`, and one with OID 9 and the key `id` took it. -/
def handedOver : Timeline where
  lsn x := 100 * (x + 1)
  mono a b le := by simpa using le
  periods :=
    [⟨7, ("public", "t"), [⟨⟨"a", 25, -1⟩, false, false⟩], true, 0, 0⟩,
      ⟨9, ("public", "t"), [⟨⟨"id", 23, -1⟩, false, true⟩], true, 1, 4⟩]
  identified := by decide
  ordered := by decide
  firsts := by decide
  apart := by decide

/-- A fold of the second table's snapshot at LSN 250, up to LSN 400. -/
theorem handedOver_own :
    let rel : PGRelation := ⟨9, [⟨"id", 23, -1⟩], by simp⟩
    foldKey handedOver.shapes ("public", "t") rel 250 400 = .ok (some ["id"]) ∧
      ∀ p ∈ handedOver.periods, ∀ x, p.first ≤ x → x ≤ p.last → 250 ≤ handedOver.lsn x →
        handedOver.lsn x < 400 → p.oid = 9 := by
  intro rel
  have passed : foldKey handedOver.shapes ("public", "t") rel 250 400 = .ok (some ["id"]) := rfl
  refine ⟨passed, fun p member x after before from_ upTo => ?_⟩
  have named : ∀ p ∈ handedOver.periods, p.name = ("public", "t") := by decide
  exact (fold_uses_own handedOver _ rel 250 400 _ passed p member (named p member) x after before
    from_ upTo).1

end Dbtrail.PgShape
