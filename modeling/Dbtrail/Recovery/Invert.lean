import Dbtrail.Lib.Checked
import Dbtrail.Recovery.Server

/-!
# A recovery script inverts the history

The WHERE built from a row's image finds that row and no other
(`keyConds_find`), so undoing one change from the contents after it gives the
contents before it and touches one row (`exec_reversal`). A script that undoes a
history from its end therefore gives the contents the history started from
(`script_inverts_history`).
-/

namespace Dbtrail

open List Generator

namespace Server

variable {tm : TableMeta} {V : Type} (srv : Server tm V)

theorem sameKey_refl (lawful : srv.Lawful) (r : TableRow tm V) : srv.sameKey r r = true := by
  simp [sameKey, lawful.same_refl]

theorem sameKey_symm (lawful : srv.Lawful) {r s : TableRow tm V}
    (same : srv.sameKey r s = true) : srv.sameKey s r = true := by
  simp only [sameKey, all_eq_true, Bool.or_eq_true] at same ⊢
  intro c mem
  exact (same c mem).imp_right (lawful.same_symm c _ _)

/-! ## One statement -/

/-- When exactly one row of the table is hit, it is replaced and counted once. -/
theorem replaceHits_single {R : Type} (limit : Bool) (hit : R → Bool) (new : R → List R)
    {rows rest : List R} {target : R} (found : rows.Perm (target :: rest))
    (isHit : hit target = true) (others : ∀ r ∈ rest, hit r = false) :
    (replaceHits limit hit new rows).1.Perm (new target ++ rest) ∧
      (replaceHits limit hit new rows).2 = 1 := by
  obtain ⟨front, back, rfl⟩ := append_of_mem (found.symm.subset mem_cons_self)
  have left : (front ++ back).Perm rest :=
    (perm_cons target).mp (perm_middle.symm.trans found)
  have misses : ∀ r ∈ front ++ back, hit r = false := fun r mem => others r (left.subset mem)
  have untouched : ∀ l : List R, (∀ r ∈ l, hit r = false) →
      replaceHits limit hit new l = (l, 0) := by
    intro l none_hit
    induction l with
    | nil => rfl
    | cons r l ih =>
      simp [replaceHits, none_hit r mem_cons_self,
        ih fun r mem => none_hit r (mem_cons_of_mem _ mem)]
  have result : replaceHits limit hit new (front ++ target :: back) =
      (front ++ (new target ++ back), 1) := by
    clear found left
    induction front with
    | nil =>
      have none_hit := untouched back fun r mem => misses r (by simpa using mem)
      cases limit <;> simp [replaceHits, isHit, none_hit]
    | cons r front ih =>
      have skipped := misses r (by simp)
      have rest := ih fun s mem => misses s (mem_cons_of_mem _ mem)
      simp [replaceHits, skipped, rest]
  rw [result]
  refine ⟨?_, rfl⟩
  have moved : (front ++ (new target ++ back)).Perm (new target ++ (front ++ back)) := by
    rw [← append_assoc, ← append_assoc]
    exact perm_append_comm.append_right back
  exact moved.trans (left.append_left (new target))

/-! ## The statements of one row's images -/

variable {srv} {g : Generator} {row before : TableRow tm V} {im : Image} {skip : Bytes → Bool}
  {rest rows rows' : List (TableRow tm V)} {hist : List Change}

theorem Shows.columnValue {img : Option Image} (shows : srv.Shows img row) (c : tm.Col) :
    Generator.columnValue img c.1.name = srv.stored c (row c) := by
  obtain ⟨im, rfl, values, _⟩ := shows
  simp [Generator.columnValue, values c]

/-- What a statement assigns to a column. -/
theorem lookup_assignments (shows : srv.Shows (some im) row) (skip : Bytes → Bool) (c : tm.Col) :
    (g.assignments (some tm) skip im).lookup c.1.name =
      if skip c.1.name then none
      else some (g.formatColumnValue (some tm) c.1.name (srv.stored c (row c))) := by
  have value := shows.columnValue c
  obtain ⟨im', same, values, _⟩ := shows
  cases same
  unfold assignments
  split
  · rename_i skipped
    rw [lookup_eq_none_iff]
    intro p mem
    obtain ⟨col, inKeys, rfl⟩ := mem_map.mp mem
    have kept := (mem_filter.mp inKeys).2
    simp only [bne_iff_ne, ne_eq]
    rintro rfl
    simp [skipped] at kept
  · rename_i kept
    have inKeys : c.1.name ∈ sortedKeys im := by
      rw [mem_sortedKeys, ← AList.lookup_isSome, values c]
      rfl
    rw [lookup_graph _ (mem_filter.mpr ⟨inKeys, by simpa using kept⟩), value]

/-- A statement only assigns columns of the table that it does not skip. -/
theorem mem_assignments (shows : srv.Shows (some im) row) {p : Bytes × Literal}
    (mem : p ∈ g.assignments (some tm) skip im) :
    ∃ c : tm.Col, c.1.name = p.1 ∧ skip p.1 = false := by
  obtain ⟨im', same, _, columns⟩ := shows
  cases same
  obtain ⟨col, inKeys, rfl⟩ := mem_map.mp mem
  obtain ⟨inImage, kept⟩ := mem_filter.mp inKeys
  obtain ⟨c, memC, name⟩ := mem_map.mp (columns col (mem_sortedKeys.mp inImage))
  exact ⟨⟨c, memC⟩, name, by simpa using kept⟩

theorem takes_assignments (shows : srv.Shows (some im) row) {identity : Bool}
    (fits : ∀ c : tm.Col, skip c.1.name = false →
      c.1.isGenerated = false ∧ (identity = true ∨ c.1.isIdentityAlways = false)) :
    takes tm (g.assignments (some tm) skip im) identity = true := by
  simp only [takes, all_eq_true]
  intro p mem
  obtain ⟨c, name, kept⟩ := mem_assignments shows mem
  rw [← name] at kept ⊢
  rw [column_eq c]
  simpa using fits c kept

theorem holds_equals (r : TableRow tm V) (c : tm.Col) (lit : Literal) :
    srv.holds r ⟨c.1.name, some lit⟩ = srv.equals c (r c) lit := by
  rw [Bool.eq_iff_iff]
  simp only [holds, any_eq_true, Bool.and_eq_true, beq_iff_eq]
  constructor
  · rintro ⟨d, _, name, equal⟩
    rwa [col_eq_of_name name] at equal
  · intro equal
    exact ⟨c, mem_attach _ c, rfl, equal⟩

/-- The condition on one key column of an image. -/
def keyCond (g : Generator) (tm : TableMeta) (im : Image) (pk : ColumnMeta) : Cond :=
  ⟨pk.name, some (g.decodeColumnValue (some tm) pk.name (Generator.columnValue (some im) pk.name))⟩

theorem pkWhereClause_eq (shows : srv.Shows (some im) row) (keyed : tm.pkColumnMetas ≠ [])
    (ordinary : g.sysVersionedEnd tm = none) :
    g.pkWhereClause (some tm) im = (tm.pkColumnMetas.map (keyCond g tm im), false) := by
  have key : g.whereKey tm = tm.pkColumnMetas := by
    unfold whereKey
    rw [ordinary]
  have conds : g.keyConds tm im = some (tm.pkColumnMetas.map (keyCond g tm im)) := by
    unfold keyConds
    rw [key]
    apply mapM_eq_some_map
    intro pk mem
    obtain ⟨im', same, values, _⟩ := shows
    cases same
    have value := values ⟨pk, (mem_filter.mp mem).1⟩
    simp [keyCond, columnValue, value]
  simp [pkWhereClause, key, conds, keyed]

/-- The WHERE built from a row's image finds the rows with that row's key. -/
theorem keyConds_find (shows : srv.Shows (some im) row) (faithful : srv.Faithful g row)
    (r : TableRow tm V) :
    (tm.pkColumnMetas.map (keyCond g tm im)).all (srv.holds r) = srv.sameKey r row := by
  have each : ∀ c : tm.Col, c.1.isPK = true →
      srv.holds r (keyCond g tm im c.1) = srv.same c (r c) (row c) := by
    intro c isPK
    rw [keyCond, holds_equals, shows.columnValue, faithful.key_found c isPK]
  rw [Bool.eq_iff_iff]
  simp only [all_map, all_eq_true, Function.comp_apply, sameKey, Bool.or_eq_true,
    Bool.not_eq_true']
  constructor
  · intro found c _
    cases isPK : c.1.isPK with
    | false => exact .inl rfl
    | true => exact .inr ((each c isPK).symm.trans (found c.1 (mem_filter.mpr ⟨c.2, isPK⟩)))
  · intro same pk mem
    obtain ⟨inColumns, isPK⟩ := mem_filter.mp mem
    rcases same ⟨pk, inColumns⟩ (mem_attach _ _) with notPK | equal
    · rw [isPK] at notPK
      cases notPK
    · exact (each ⟨pk, inColumns⟩ isPK).trans equal

/-! ## Undoing one change -/

/-- The generator and the server know the same ordinary keyed table, and no column
of it is gone from the latest snapshot. -/
structure Suits (srv : Server tm V) (g : Generator) : Prop where
  lawful : srv.Lawful
  dialect : g.dialect = srv.dialect
  keyed : tm.pkColumnMetas ≠ []
  ordinary : g.sysVersionedEnd tm = none
  current : ∀ latest current, g.resolver = some latest →
    latest srv.schema srv.table = some current →
      ∀ c ∈ tm.columns, c.name ∈ current.columns.map ColumnMeta.name

/-- The change's snapshot describes the table, and its rows are ones the server reads
back from their literals. -/
structure Readable (srv : Server tm V) (g : Generator) (row : Change) : Prop where
  table : g.tableOf row = some tm
  unmarked : g.markerInGeneratedKey tm row = false
  faithful : ∀ r, srv.Shows row.rowBefore r ∨ srv.Shows row.rowAfter r → srv.Faithful g r

/-- An UPDATE that left every GENERATED ALWAYS identity column as it was, of a table
with some other column to set. -/
def KeepsIdentity (tm : TableMeta) (row : Change) : Prop :=
  row.eventType = .update →
    (∀ c : tm.Col, c.1.isIdentityAlways = true →
      Generator.columnValue row.rowBefore c.1.name = Generator.columnValue row.rowAfter c.1.name) ∧
    ∃ c : tm.Col, c.1.isGenerated = false ∧ c.1.isIdentityAlways = false

/-- In allowed contents no other row has the row's key. -/
theorem others_apart (lawful : srv.Lawful) {target : TableRow tm V} (ok : srv.allowed rows = true)
    (found : rows.Perm (target :: rest)) :
    ∀ r ∈ rest, srv.sameKey r target = false := by
  intro r mem
  have keyed := rel_of_pairwise_cons
    (lawful.allowed_keyed (lawful.allowed_perm found ok)) mem
  rw [Bool.eq_false_iff] at keyed ⊢
  exact fun same => keyed (srv.sameKey_symm lawful same)

theorem checked_of_perm (lawful : srv.Lawful) (ok : srv.allowed rows = true)
    {result : List (TableRow tm V) × ℕ} (same : result.1.Perm rows) :
    srv.checked result = some result := by
  unfold checked
  rw [lawful.allowed_perm same.symm ok, if_pos rfl]

/-- A row put together from all its columns' literals is the row. -/
theorem assign_eq {old : TableRow tm V} (shows : srv.Shows (some im) row)
    (faithful : srv.Faithful g row)
    (kept : ∀ c : tm.Col, skip c.1.name = true → c.1.isGenerated = false → old c = row c) :
    srv.assign (g.assignments (some tm) skip im) old = row := by
  have base : ∀ c : tm.Col, c.1.isGenerated = false →
      srv.overwrite (g.assignments (some tm) skip im) old c = row c := by
    intro c plain
    rw [overwrite, lookup_assignments shows]
    cases skipped : skip c.1.name with
    | true => exact kept c skipped plain
    | false => exact faithful.read_back c plain
  funext c
  unfold assign
  cases generated : c.1.isGenerated with
  | true => exact faithful.recomputed _ base c generated
  | false => exact base c generated

/-- The WHERE of a row's image replaces that row and no other. -/
theorem replaceHits_key (lawful : srv.Lawful) (shows : srv.Shows (some im) row)
    (faithful : srv.Faithful g row) (ok : srv.allowed rows = true)
    (found : rows.Perm (row :: rest)) (limit : Bool) (new : TableRow tm V → List (TableRow tm V)) :
    ∃ out, replaceHits limit
        (fun r => (tm.pkColumnMetas.map (keyCond g tm im)).all (srv.holds r)) new rows = (out, 1) ∧
      out.Perm (new row ++ rest) := by
  have ownKey := (keyConds_find shows faithful row).trans (srv.sameKey_refl lawful row)
  have otherKeys : ∀ r ∈ rest,
      (tm.pkColumnMetas.map (keyCond g tm im)).all (srv.holds r) = false := fun r mem =>
    (keyConds_find shows faithful r).trans (others_apart lawful ok found r mem)
  obtain ⟨left, one⟩ := replaceHits_single limit
    (fun r => (tm.pkColumnMetas.map (keyCond g tm im)).all (srv.holds r)) new found ownKey otherKeys
  exact ⟨_, Prod.ext rfl one, left⟩

theorem keyCond_mem {col : Bytes}
    (mem : col ∈ (tm.pkColumnMetas.map (keyCond g tm im)).map Cond.col) :
    col ∈ tm.columns.map ColumnMeta.name := by
  rw [map_map] at mem
  obtain ⟨pk, inPK, rfl⟩ := mem_map.mp mem
  exact mem_map_of_mem (mem_filter.mp inPK).1

theorem assignments_mem (shows : srv.Shows (some im) row) {col : Bytes}
    (mem : col ∈ (g.assignments (some tm) skip im).map Prod.fst) :
    col ∈ tm.columns.map ColumnMeta.name := by
  obtain ⟨p, inValues, rfl⟩ := mem_map.mp mem
  obtain ⟨c, name, _⟩ := mem_assignments shows inValues
  exact mem_map.mpr ⟨c.1, c.2, name⟩

/-- Running the statement on the contents after the change gives those before it, by
touching one row; it names columns of the table only. -/
def Undoes (srv : Server tm V) (built : Generator.Built) (rows rows' : List (TableRow tm V)) :
    Prop :=
  (∀ col ∈ built.cols, col ∈ tm.columns.map ColumnMeta.name) ∧
    ∃ out, srv.exec built.stmt rows' = some (out, 1) ∧ out.Perm rows

/-- The statement that undoes a change, for a change that has one. -/
def reversal (g : Generator) (row : Change) : Stmt :=
  match g.buildStatement row with
  | .ok built => built.stmt
  | .error _ => .delete [] [] [] false

section OneChange

variable {change : Change} (suits : srv.Suits g)
  (named : change.schemaName = srv.schema ∧ change.tableName = srv.table)
  (readable : srv.Readable g change)

include suits named readable

theorem buildDelete_undoes {after : TableRow tm V} (image : srv.Shows change.rowAfter after)
    (grown : rows'.Perm (after :: rows)) (ok : srv.allowed rows = true)
    (ok' : srv.allowed rows' = true) :
    ∃ built, g.buildDelete change = .ok built ∧ srv.Undoes built rows rows' := by
  have faithful := readable.faithful after (.inr image)
  obtain ⟨im, isImage, content⟩ := image
  have shows : srv.Shows (some im) after := ⟨im, rfl, content⟩
  have conds := pkWhereClause_eq shows suits.keyed suits.ordinary
  refine ⟨⟨.delete change.schemaName change.tableName
      (tm.pkColumnMetas.map (keyCond g tm im)) false,
    (tm.pkColumnMetas.map (keyCond g tm im)).map Cond.col⟩, ?_, fun col => keyCond_mem, ?_⟩
  · unfold buildDelete
    rw [isImage, readable.table]
    dsimp only
    rw [conds]
  · obtain ⟨out, replaced, left⟩ := replaceHits_key suits.lawful shows faithful ok' grown
      (false && srv.dialect == .mySQL) fun _ => []
    refine ⟨out, ?_, left⟩
    dsimp only [exec]
    rw [if_pos named, replaced, checked_of_perm suits.lawful ok left]

theorem buildUpdate_undoes {after : TableRow tm V} (type : change.eventType = .update)
    (keeps : KeepsIdentity tm change) (imageBefore : srv.Shows change.rowBefore before)
    (imageAfter : srv.Shows change.rowAfter after) (old : rows.Perm (before :: rest))
    (new : rows'.Perm (after :: rest)) (ok : srv.allowed rows = true)
    (ok' : srv.allowed rows' = true) :
    ∃ built, g.buildUpdate change = .ok built ∧ srv.Undoes built rows rows' := by
  obtain ⟨sameIdentity, settable, plain, free⟩ := keeps type
  have faithfulBefore := readable.faithful before (.inl imageBefore)
  have faithfulAfter := readable.faithful after (.inr imageAfter)
  have skipCol : ∀ c : tm.Col, updateSetSkipCol (some tm) c.1.name =
      (c.1.isGenerated || c.1.isIdentityAlways) := by
    intro c
    simp [updateSetSkipCol, column_eq c]
  have identity : ∀ c : tm.Col, updateSetSkipCol (some tm) c.1.name = true →
      c.1.isGenerated = false → after c = before c := by
    intro c skipped plain
    rw [skipCol, plain, Bool.false_or] at skipped
    have stored := sameIdentity c skipped
    rw [imageBefore.columnValue, imageAfter.columnValue] at stored
    rw [← faithfulAfter.read_back c plain, ← stored, faithfulBefore.read_back c plain]
  obtain ⟨imBefore, isBefore, contentBefore⟩ := imageBefore
  obtain ⟨imAfter, isAfter, contentAfter⟩ := imageAfter
  have showsBefore : srv.Shows (some imBefore) before := ⟨imBefore, rfl, contentBefore⟩
  have showsAfter : srv.Shows (some imAfter) after := ⟨imAfter, rfl, contentAfter⟩
  have conds := pkWhereClause_eq showsAfter suits.keyed suits.ordinary
  let sets := g.assignments (some tm) (updateSetSkipCol (some tm)) imBefore
  refine ⟨⟨.update change.schemaName change.tableName sets
      (tm.pkColumnMetas.map (keyCond g tm imAfter)) false,
    sets.map Prod.fst ++ (tm.pkColumnMetas.map (keyCond g tm imAfter)).map Cond.col⟩, ?_, ?_, ?_⟩
  · unfold buildUpdate
    rw [isBefore, isAfter, readable.table]
    dsimp only
    rw [conds]
  · exact forall_mem_append.mpr ⟨fun _ => assignments_mem showsBefore, fun _ => keyCond_mem⟩
  · have some_set : sets ≠ [] := by
      intro none_set
      have value := lookup_assignments (g := g) showsBefore
        (updateSetSkipCol (some tm)) settable
      rw [skipCol, plain, free] at value
      have absent : sets.lookup settable.1.name = none := by rw [none_set]; rfl
      simp only [sets, value] at absent
      cases absent
    have takesAll : takes tm sets (srv.dialect == .mySQL) = true := by
      apply takes_assignments showsBefore
      intro c kept
      rw [skipCol, Bool.or_eq_false_iff] at kept
      exact ⟨kept.1, .inr kept.2⟩
    obtain ⟨out, replaced, left⟩ := replaceHits_key suits.lawful showsAfter faithfulAfter ok' new
      (false && srv.dialect == .mySQL) fun r => [srv.assign sets r]
    have restored : srv.assign sets after = before := assign_eq showsBefore faithfulBefore identity
    rw [restored] at left
    have back : out.Perm rows := left.trans old.symm
    refine ⟨out, ?_, back⟩
    dsimp only [exec]
    rw [if_pos ⟨named.1, named.2, some_set, takesAll⟩, replaced,
      checked_of_perm suits.lawful ok back]

theorem buildInsert_undoes (image : srv.Shows change.rowBefore before)
    (shrunk : rows.Perm (before :: rows')) (ok : srv.allowed rows = true) :
    ∃ built, g.buildInsert change = .ok built ∧ srv.Undoes built rows rows' := by
  have faithful := readable.faithful before (.inl image)
  obtain ⟨im, isImage, content⟩ := image
  have shows : srv.Shows (some im) before := ⟨im, rfl, content⟩
  have skipCol : ∀ c : tm.Col, generatedCol (some tm) c.1.name = c.1.isGenerated := by
    intro c
    simp [generatedCol, column_eq c]
  let values := g.assignments (some tm) (generatedCol (some tm)) im
  refine ⟨⟨.insert change.schemaName change.tableName values (g.dialect == .postgres),
    values.map Prod.fst⟩, ?_, fun col => assignments_mem shows, ?_⟩
  · unfold buildInsert
    rw [isImage, readable.table]
  · have takesAll : takes tm values (srv.dialect == .mySQL || g.dialect == .postgres) = true := by
      apply takes_assignments shows
      intro c kept
      rw [skipCol] at kept
      refine ⟨kept, .inl ?_⟩
      rw [suits.dialect]
      cases srv.dialect <;> rfl
    have restored : srv.assign values srv.default = before := by
      apply assign_eq shows faithful
      intro c skipped plain
      rw [skipCol, plain] at skipped
      cases skipped
    refine ⟨before :: rows', ?_, shrunk.symm⟩
    dsimp only [exec]
    rw [if_pos ⟨named.1, named.2, takesAll⟩, restored, checked_of_perm suits.lawful ok shrunk.symm]

theorem buildStatement_undoes (keeps : KeepsIdentity tm change)
    (step : srv.Applies change rows rows') (ok : srv.allowed rows = true)
    (ok' : srv.allowed rows' = true) :
    ∃ built, g.buildStatement change = .ok built ∧ srv.Undoes built rows rows' := by
  unfold buildStatement
  cases step with
  | insert type image grown =>
    rw [type]
    exact buildDelete_undoes suits named readable image grown ok ok'
  | update type imageBefore imageAfter old new =>
    rw [type]
    exact buildUpdate_undoes suits named readable type keeps imageBefore imageAfter old new ok ok'
  | delete type image shrunk =>
    rw [type]
    exact buildInsert_undoes suits named readable image shrunk ok

theorem driftedEmitted_nil {cols : List Bytes}
    (columns : ∀ col ∈ cols, col ∈ tm.columns.map ColumnMeta.name) :
    g.driftedEmitted change cols = [] := by
  unfold driftedEmitted
  rw [readable.table, named.1, named.2]
  cases isLatest : g.resolver with
  | none => rfl
  | some latest =>
    dsimp only
    cases isCurrent : latest srv.schema srv.table with
    | none => rfl
    | some current =>
      refine filter_eq_nil_iff.mpr ?_
      intro col mem
      obtain ⟨c, inColumns, rfl⟩ := mem_map.mp (columns col (mem_eraseDups.mp mem))
      have still := suits.current latest current isLatest isCurrent c inColumns
      simp only [contains_iff_mem.mpr still, Bool.not_true, Bool.and_false,
        Bool.false_eq_true, not_false_eq_true]

/-- The script's statement for a change is its reversal, and it undoes the change. -/
theorem exec_reversal (keeps : KeepsIdentity tm change)
    (step : srv.Applies change rows rows') (ok : srv.allowed rows = true)
    (ok' : srv.allowed rows' = true) :
    g.Reverses change (reversal g change) ∧
      ∃ out, srv.exec (reversal g change) rows' = some (out, 1) ∧ out.Perm rows := by
  obtain ⟨built, isBuilt, columns, undone⟩ :=
    buildStatement_undoes suits named readable keeps step ok ok'
  have isReversal : reversal g change = built.stmt := by
    unfold reversal
    rw [isBuilt]
  have unversioned : g.sysVersionedReversal change = .reverse change := by
    unfold sysVersionedReversal
    rw [readable.table]
    dsimp only
    rw [suits.ordinary]
    dsimp only
    rw [readable.unmarked, if_neg Bool.false_ne_true]
  rw [isReversal]
  refine ⟨?_, undone⟩
  unfold Generator.Reverses reverseChange
  rw [unversioned]
  dsimp only
  rw [isBuilt]
  dsimp only
  rw [driftedEmitted_nil suits named readable columns]

end OneChange

/-! ## Undoing a history -/

theorem Applies.of_perm {row : Change} {mid mid' : List (TableRow tm V)}
    (step : srv.Applies row rows mid) (same : mid'.Perm mid) : srv.Applies row rows mid' := by
  cases step with
  | insert type image grown => exact .insert type image (same.trans grown)
  | update type imageBefore imageAfter old new =>
    exact .update type imageBefore imageAfter old (same.trans new)
  | delete type image shrunk => exact .delete type image (shrunk.trans (same.symm.cons _))

theorem History.allowed_start (history : srv.History hist rows rows') :
    srv.allowed rows = true := by
  cases history with
  | nil _ ok => exact ok
  | cons _ ok _ _ => exact ok

theorem execAll_append (stmts more : List Stmt) {next : List (TableRow tm V)} {touched : List ℕ}
    (first : srv.execAll stmts rows = some (next, touched)) :
    srv.execAll (stmts ++ more) rows =
      (srv.execAll more next).map fun out => (out.1, touched ++ out.2) := by
  induction stmts generalizing rows touched with
  | nil =>
    simp only [execAll, Option.some.injEq, Prod.mk.injEq] at first
    obtain ⟨rfl, rfl⟩ := first
    rw [nil_append]
    cases srv.execAll more rows <;> rfl
  | cons stmt stmts ih =>
    simp only [cons_append, execAll] at first ⊢
    cases ran : srv.exec stmt rows with
    | none => simp [ran] at first
    | some result =>
      simp only [ran, Option.map_eq_some_iff, Prod.mk.injEq] at first
      obtain ⟨out, rest, rfl, rfl⟩ := first
      simp only [ih rest, Option.map_map, Function.comp_def, cons_append]

/-- From the end of a history back to its start, one touched row for each change. -/
theorem History.undone (suits : srv.Suits g) {final : List (TableRow tm V)}
    (history : srv.History hist rows rows') (readable : ∀ row ∈ hist, srv.Readable g row)
    (keeps : ∀ row ∈ hist, KeepsIdentity tm row) (same : final.Perm rows') :
    (∀ row ∈ hist, g.Reverses row (reversal g row)) ∧
      ∃ out, srv.execAll (hist.map (reversal g)).reverse final =
          some (out, List.replicate hist.length 1) ∧ out.Perm rows := by
  induction history with
  | nil rows ok => exact ⟨fun row mem => absurd mem not_mem_nil, final, rfl, same⟩
  | @cons row rest rows mid rows' named ok step run ih =>
    obtain ⟨reverses, back, ran, atMid⟩ :=
      ih (fun r mem => readable r (mem_cons_of_mem _ mem))
        (fun r mem => keeps r (mem_cons_of_mem _ mem)) same
    -- the later changes are undone up to the order of the rows, which a change does not see
    have okBack := suits.lawful.allowed_perm atMid.symm run.allowed_start
    obtain ⟨reversesRow, out, exec, undone⟩ := exec_reversal suits named
      (readable row mem_cons_self) (keeps row mem_cons_self)
      (step.of_perm atMid) ok okBack
    refine ⟨forall_mem_cons.mpr ⟨reversesRow, reverses⟩, out, ?_, undone⟩
    rw [map_cons, reverse_cons, execAll_append _ _ ran]
    simp [execAll, exec, replicate_succ']

/-- The changes are undone in the reverse of `hist`'s order: they are handed in that
order and not sorted, or their ids ascend in it, or the index confirms it. -/
inductive Ordered (g : Generator) (rows hist : List Change) : Prop
  | handed (same : rows = hist) (unsorted : g.binlogOrder = false ∨ g.dialect = .postgres)
  | ascending (same : rows = hist) (ids : hist.Pairwise fun a b => a.eventID < b.eventID)
  | confirmed (asked : g.binlogOrder = true) (mysql : g.dialect = .mySQL) (same : rows.Perm hist)
      (coords : ∀ row ∈ rows, hasBinlogCoordinate row.coord = true)
      (rises : hist.Pairwise (RisesTo Change.coord))
      (vouched : Vouched Change.coord g.orderProof rows)

theorem Ordered.undoOrder {rows : List Change} (ordered : Ordered g rows hist) :
    (g.undoOrder rows).2 = hist := by
  unfold Generator.undoOrder
  cases ordered with
  | handed same unsorted =>
    rcases unsorted with off | postgres
    · simp [off, same]
    · simp [postgres, same]
  | ascending same ids =>
    split
    · rw [same, orderByBinlog_of_ascending Change.coord g.orderProof ids]
    · exact same
  | confirmed asked mysql same coords rises vouched =>
    rw [asked, mysql]
    exact orderByBinlog_of_confirmed Change.coord g.orderProof same coords rises vouched

end Server

open Server in
/-- Applied to the contents a history led to, the script gives the contents it
started from, and each of its statements touches one row. -/
theorem script_inverts_history {tm : TableMeta} {V : Type} (srv : Server tm V) (g : Generator)
    (suits : srv.Suits g) {rows hist : List Change} {start final : List (TableRow tm V)}
    (history : srv.History hist start final) (readable : ∀ row ∈ hist, srv.Readable g row)
    (keeps : ∀ row ∈ hist, KeepsIdentity tm row) (ordered : Ordered g rows hist)
    (accepts : g.Accepts rows) :
    ∃ script, g.generate rows = .ok script ∧
      ∃ out, srv.execAll script.statements final = some (out, List.replicate hist.length 1) ∧
        out.Perm start := by
  obtain ⟨reverses, out, ran, undone⟩ := history.undone suits readable keeps (List.Perm.refl final)
  have order := ordered.undoOrder
  have inHist : ∀ row ∈ rows, row ∈ hist := fun row mem => by
    rw [← order]
    exact g.mem_undoOrder.mpr mem
  obtain ⟨script, generated, statements⟩ :=
    g.generate_of_reversed accepts fun row mem => reverses row (inHist row mem)
  refine ⟨script, generated, out, ?_, undone⟩
  rw [statements, order]
  exact ran

/-! ## Two histories of a small table -/

/-- A table with a key and a text. -/
def itemTable (identity : Bool) : TableMeta where
  columns := [⟨utf8 "id", "varchar", true, false, identity⟩,
    ⟨utf8 "v", "varchar", false, false, false⟩]
  names_nodup := by cases identity <;> decide

def itemImage (id v : String) : Image :=
  ((∅ : Image).insert (utf8 "v") (.str (utf8 v))).insert (utf8 "id") (.str (utf8 id))

def itemRow {identity : Bool} (id v : String) : TableRow (itemTable identity) Value :=
  fun c => if c.1.isPK then .str (utf8 id) else .str (utf8 v)

def itemGenerator (dialect : Dialect) (identity sorts : Bool) (proof : IDProof) : Generator where
  dialect := dialect
  resolver := none
  resolverForRow := fun _ => some fun _ _ => some (itemTable identity)
  binlogOrder := sorts
  orderProof := fun _ => proof
  decodeString := fun _ => none

def itemServer (dialect : Dialect) (identity : Bool) : Server (itemTable identity) Value :=
  plainServer (itemTable identity) dialect (utf8 "shop") (utf8 "item")

def itemChange (eventID startPos : ℕ) (eventTimestamp : ℤ) (eventType : EventType)
    (rowBefore rowAfter : Option Image) : Change where
  eventID := eventID
  binlogFile := "binlog.000001"
  startPos := startPos
  eventTimestamp := eventTimestamp
  schemaName := utf8 "shop"
  tableName := utf8 "item"
  eventType := eventType
  rowBefore := rowBefore
  rowAfter := rowAfter

theorem itemImage_shows {dialect : Dialect} {identity : Bool} (id v : String) :
    (itemServer dialect identity).Shows (some (itemImage id v)) (itemRow id v) := by
  refine ⟨itemImage id v, rfl, ?_, ?_⟩
  · rintro ⟨c, mem⟩
    rcases mem_cons.mp mem with rfl | rest
    · rfl
    · cases mem_singleton.mp rest
      rfl
  · intro name mem
    have keys : (itemImage id v).keys = [utf8 "id", utf8 "v"] := rfl
    rw [AList.mem_keys, keys] at mem
    exact mem

theorem itemServer_suits (dialect : Dialect) (identity sorts : Bool) (proof : IDProof) :
    (itemServer dialect identity).Suits (itemGenerator dialect identity sorts proof) where
  lawful := plainServer_lawful _ _ _ _
  dialect := rfl
  keyed := by cases identity <;> decide
  ordinary := by cases identity <;> rfl
  current := fun _ _ none _ => by cases none

theorem itemChange_readable {dialect : Dialect} {identity sorts : Bool} {proof : IDProof}
    (row : Change) : (itemServer dialect identity).Readable
      (itemGenerator dialect identity sorts proof) row where
  table := rfl
  unmarked := by cases identity <;> rfl
  faithful := fun r _ => plainServer_faithful _ (by cases identity <;> decide) r

/-- Three changes whose second statement started before the first one's. -/
def movedKey : List Change :=
  [itemChange 1 100 30 .insert none (some (itemImage "b" "x")),
    itemChange 2 200 20 .update (some (itemImage "a" "y")) (some (itemImage "c" "z")),
    itemChange 3 300 40 .delete (some (itemImage "b" "x")) none]

theorem movedKey_history :
    (itemServer .mySQL false).History movedKey [itemRow "a" "y"] [itemRow "c" "z"] := by
  refine .cons ⟨rfl, rfl⟩ rfl (.insert rfl (itemImage_shows "b" "x") (List.Perm.refl _)) ?_
  refine .cons ⟨rfl, rfl⟩ (by decide) (.update rfl (itemImage_shows "a" "y")
    (itemImage_shows "c" "z") (List.Perm.swap _ _ _) (List.Perm.swap _ _ _)) ?_
  refine .cons ⟨rfl, rfl⟩ (by decide) (.delete rfl (itemImage_shows "b" "x")
    (List.Perm.refl _)) ?_
  exact .nil _ rfl

/-- Handed in by statement time, the three changes are undone from the last one
written back, the moved key included. -/
theorem movedKey_undone :
    ∃ script, (itemGenerator .mySQL false true .followStream).generate
        [itemChange 2 200 20 .update (some (itemImage "a" "y")) (some (itemImage "c" "z")),
          itemChange 1 100 30 .insert none (some (itemImage "b" "x")),
          itemChange 3 300 40 .delete (some (itemImage "b" "x")) none] = .ok script ∧
      ∃ out, (itemServer .mySQL false).execAll script.statements [itemRow "c" "z"] =
          some (out, [1, 1, 1]) ∧ out.Perm [itemRow "a" "y"] := by
  refine script_inverts_history (itemServer .mySQL false)
    (itemGenerator .mySQL false true .followStream) (itemServer_suits .mySQL false true _)
    movedKey_history (fun row _ => itemChange_readable row) ?_ ?_ ?_
  · intro row _ _
    refine ⟨?_, ⟨_, mem_cons_of_mem _ mem_cons_self⟩, rfl, rfl⟩
    rintro ⟨c, mem⟩ identity
    rcases mem_cons.mp mem with rfl | rest
    · cases identity
    · cases mem_singleton.mp rest
      cases identity
  · refine .confirmed rfl rfl (List.Perm.swap _ _ _) (by decide) ?_ ⟨by decide, .inl rfl⟩
    simp only [movedKey, pairwise_cons, mem_cons, not_mem_nil, or_false,
      forall_eq_or_imp, forall_eq, List.Pairwise.nil, and_true, false_implies, implies_true]
    refine ⟨⟨⟨?_, ?_⟩, ?_, ?_⟩, ?_, ?_⟩ <;> decide
  · exact ⟨rfl, by decide⟩

/-- An UPDATE that drew a new GENERATED ALWAYS identity. -/
def newIdentity : Change :=
  itemChange 1 100 30 .update (some (itemImage "1" "x")) (some (itemImage "2" "x"))

/-- Two changes of one row; the second waited for the first one's row lock, so its
statement started first. -/
def lockWaitFirst : Change :=
  itemChange 1 100 30 .update (some (itemImage "a" "x")) (some (itemImage "a" "y"))

def lockWaitSecond : Change :=
  itemChange 2 200 20 .update (some (itemImage "a" "y")) (some (itemImage "a" "z"))

/-- A new identity stays, and two changes that are undone by statement time leave the
row on the value in between. Every statement touches its one row. -/
theorem script_leaves_other_rows :
    ((itemServer .postgres true).History [newIdentity] [itemRow "1" "x"] [itemRow "2" "x"] ∧
      ∃ script, (itemGenerator .postgres true false .unproven).generate [newIdentity] = .ok script ∧
        ∃ out, (itemServer .postgres true).execAll script.statements [itemRow "2" "x"] =
            some (out, [1]) ∧ ¬ out.Perm [itemRow "1" "x"]) ∧
    (itemServer .mySQL false).History [lockWaitFirst, lockWaitSecond]
        [itemRow "a" "x"] [itemRow "a" "z"] ∧
      ∃ script, (itemGenerator .mySQL false true .unproven).generate
          [lockWaitSecond, lockWaitFirst] = .ok script ∧
        ∃ out, (itemServer .mySQL false).execAll script.statements [itemRow "a" "z"] =
            some (out, [1, 1]) ∧ ¬ out.Perm [itemRow "a" "x"] := by
  refine ⟨⟨?_, _, rfl, _, rfl, ?_⟩, ?_, _, rfl, _, rfl, ?_⟩
  · exact .cons ⟨rfl, rfl⟩ rfl (.update rfl (itemImage_shows "1" "x") (itemImage_shows "2" "x")
      (List.Perm.refl _) (List.Perm.refl _)) (.nil _ rfl)
  · intro same
    have row := singleton_perm_singleton.mp same
    exact absurd (congrFun row ⟨_, mem_cons_self⟩) (by decide)
  · refine .cons ⟨rfl, rfl⟩ rfl (.update rfl (itemImage_shows "a" "x") (itemImage_shows "a" "y")
      (List.Perm.refl _) (List.Perm.refl _)) ?_
    exact .cons ⟨rfl, rfl⟩ rfl (.update rfl (itemImage_shows "a" "y") (itemImage_shows "a" "z")
      (List.Perm.refl _) (List.Perm.refl _)) (.nil _ rfl)
  · intro same
    have row := singleton_perm_singleton.mp same
    exact absurd (congrFun row ⟨_, mem_cons_of_mem _ mem_cons_self⟩) (by decide)

end Dbtrail
