import Mathlib

/-!
# The foreign keys a cascade can follow

`loadCascadeClosure` loads the foreign keys that a change of a parent schema can reach. It works
on schemas: each round loads the keys that reference one of the schemas of the frontier, and the
child schemas of those that propagate make up the next frontier. Each schema is in one frontier at
most, so the rounds end whatever cycles the keys form.

`loadCascadeClosure_exact` says which keys come back. They are more than those a cascade from one
table can follow: a key is loaded with the schema it references.
-/

namespace Dbtrail.Cascade

open List

/-- One column of a foreign key. -/
structure CascadeFK : Type where
  schema : String
  table : String
  constraintName : String
  column : String
  referencedSchema : String
  referencedTable : String
  referencedColumn : String
  deleteRule : String
  updateRule : String
  childExcludedFromSnapshot : Bool := false
  deriving DecidableEq, Repr

/-- The key of `seenEdge`. -/
def CascadeFK.edgeKey (fk : CascadeFK) : String :=
  fk.schema ++ "\x00" ++ fk.table ++ "\x00" ++ fk.constraintName ++ "\x00" ++ fk.column

/-- Whether a change of the parent changes the child. -/
def CascadeFK.propagates (fk : CascadeFK) : Bool :=
  fk.deleteRule == "CASCADE" || fk.deleteRule == "SET NULL" ||
    fk.updateRule == "CASCADE" || fk.updateRule == "SET NULL"

/-! ## The loop -/

structure Search : Type where
  frontier : List String
  inScope : List String
  seenEdge : List String := []
  out : List CascadeFK := []
  next : List String := []

namespace Search

def keep (st : Search) (fk : CascadeFK) : Search :=
  if fk.edgeKey ∈ st.seenEdge then st
  else { st with seenEdge := st.seenEdge ++ [fk.edgeKey], out := st.out ++ [fk] }

def widen (st : Search) (fk : CascadeFK) : Search :=
  if fk.propagates ∧ fk.schema ∉ st.inScope then
    { st with inScope := st.inScope ++ [fk.schema], next := st.next ++ [fk.schema] }
  else st

/-- The body of the loop over a batch. -/
def visit (st : Search) (fk : CascadeFK) : Search := (st.keep fk).widen fk

def sweep (st : Search) (batch : List CascadeFK) : Search :=
  batch.foldl visit { st with next := [] }

def advance (st : Search) (batch : List CascadeFK) : Search :=
  { st.sweep batch with frontier := (st.sweep batch).next }

end Search

/-- `fuel` bounds the number of rounds; `none` says that it did not suffice. -/
def closureLoop {ε : Type} (load : List String → Except ε (List CascadeFK)) :
    ℕ → Search → Except ε (Option (List CascadeFK))
  | 0, _ => .ok none
  | fuel + 1, st =>
      if st.frontier.isEmpty then .ok (some st.out)
      else
        match load st.frontier with
        | .error e => .error e
        | .ok batch => closureLoop load fuel (st.advance batch)

def loadCascadeClosure {ε : Type} (fuel : ℕ) (parentSchema : String)
    (load : List String → Except ε (List CascadeFK)) : Except ε (Option (List CascadeFK)) :=
  closureLoop load fuel { frontier := [parentSchema], inScope := [parentSchema] }

/-- The keys of a snapshot that reference one of the schemas, compared by the collation of the
index's column. -/
def batchOf (collate : String → String) (edges : List CascadeFK) (refSchemas : List String) :
    List CascadeFK :=
  edges.filter fun fk => refSchemas.any fun s => collate s == collate fk.referencedSchema

def loadByReferencedSchema (collate : String → String) (edges : List CascadeFK)
    (refSchemas : List String) : Except String (List CascadeFK) :=
  .ok (batchOf collate edges refSchemas)

/-! ## What is reachable -/

section Reach

variable (collate : String → String) (edges : List CascadeFK) (start : String)

/-- The schemas that a change in `start` can reach through keys that propagate. -/
inductive Reaches : String → Prop where
  | start : Reaches start
  | through {fk : CascadeFK} {s : String} (known : fk ∈ edges) (parent : Reaches s)
      (references : collate s = collate fk.referencedSchema) (propagates : fk.propagates = true) :
      Reaches fk.schema

/-- A key that references a reachable schema. -/
def Reachable (fk : CascadeFK) : Prop :=
  fk ∈ edges ∧ ∃ s, Reaches collate edges start s ∧ collate s = collate fk.referencedSchema

end Reach

/-! ## One round -/

/-- What a state has done after part of a batch, from the state `st₀` before it. -/
structure Swept (st₀ : Search) (batch : List CascadeFK) (st : Search) : Prop where
  inScope : st.inScope = st₀.inScope ++ st.next
  distinct : st.inScope.Nodup
  fromBatch : ∀ s ∈ st.next, ∃ fk ∈ batch, fk.propagates = true ∧ fk.schema = s
  widened : ∀ fk ∈ batch, fk.propagates = true → fk.schema ∈ st.inScope
  keys : st.seenEdge = st.out.map CascadeFK.edgeKey
  keysDistinct : st.seenEdge.Nodup
  kept : ∀ fk ∈ st.out, fk ∈ st₀.out ∨ fk ∈ batch
  still : st₀.out ⊆ st.out
  seen : ∀ fk ∈ batch, fk.edgeKey ∈ st.seenEdge

section Round

variable {st₀ st : Search} {batch : List CascadeFK} {fk : CascadeFK}

@[simp] theorem Search.keep_inScope : (st.keep fk).inScope = st.inScope := by
  unfold Search.keep
  split <;> rfl

@[simp] theorem Search.keep_next : (st.keep fk).next = st.next := by
  unfold Search.keep
  split <;> rfl

@[simp] theorem Search.widen_seenEdge : (st.widen fk).seenEdge = st.seenEdge := by
  unfold Search.widen
  split <;> rfl

@[simp] theorem Search.widen_out : (st.widen fk).out = st.out := by
  unfold Search.widen
  split <;> rfl

theorem Search.keep_cases (st : Search) (fk : CascadeFK) :
    fk.edgeKey ∈ st.seenEdge ∧ (st.keep fk).seenEdge = st.seenEdge ∧ (st.keep fk).out = st.out ∨
      fk.edgeKey ∉ st.seenEdge ∧ (st.keep fk).seenEdge = st.seenEdge ++ [fk.edgeKey] ∧
        (st.keep fk).out = st.out ++ [fk] := by
  unfold Search.keep
  split
  next seen => exact .inl ⟨seen, rfl, rfl⟩
  next unseen => exact .inr ⟨unseen, rfl, rfl⟩

theorem Search.widen_cases (st : Search) (fk : CascadeFK) :
    (fk.propagates = true → fk.schema ∈ st.inScope) ∧ (st.widen fk).inScope = st.inScope ∧
        (st.widen fk).next = st.next ∨
      fk.propagates = true ∧ fk.schema ∉ st.inScope ∧
        (st.widen fk).inScope = st.inScope ++ [fk.schema] ∧
        (st.widen fk).next = st.next ++ [fk.schema] := by
  unfold Search.widen
  split
  next wider => exact .inr ⟨wider.1, wider.2, rfl, rfl⟩
  next same => exact .inl ⟨fun propagates => not_not.mp fun out => same ⟨propagates, out⟩, rfl, rfl⟩

theorem Swept.visit (swept : Swept st₀ batch st) (fk : CascadeFK) :
    Swept st₀ (batch ++ [fk]) (st.visit fk) := by
  unfold Search.visit
  have widening := Search.widen_cases (st.keep fk) fk
  simp only [Search.keep_inScope, Search.keep_next] at widening
  have keeping := Search.keep_cases st fk
  refine ⟨?_, ?_, ?_, ?_, ?_, ?_, ?_, ?_, ?_⟩
  · rcases widening with ⟨-, inScope, next⟩ | ⟨-, -, inScope, next⟩
    · rw [inScope, next, swept.inScope]
    · rw [inScope, next, swept.inScope, append_assoc]
  · rcases widening with ⟨-, inScope, -⟩ | ⟨-, fresh, inScope, -⟩
    · rw [inScope]
      exact swept.distinct
    · rw [inScope, ← concat_eq_append]
      exact swept.distinct.concat fresh
  · intro s member
    rcases widening with ⟨-, -, next⟩ | ⟨propagates, -, -, next⟩
    · rw [next] at member
      obtain ⟨fk', inBatch, made⟩ := swept.fromBatch s member
      exact ⟨fk', mem_append_left _ inBatch, made⟩
    · rw [next, mem_append, mem_singleton] at member
      rcases member with early | rfl
      · obtain ⟨fk', inBatch, made⟩ := swept.fromBatch s early
        exact ⟨fk', mem_append_left _ inBatch, made⟩
      · exact ⟨fk, mem_append_right _ (mem_singleton_self fk), propagates, rfl⟩
  · intro fk' member propagates
    rw [mem_append, mem_singleton] at member
    rcases widening with ⟨inside, inScope, -⟩ | ⟨-, -, inScope, -⟩
    · rw [inScope]
      rcases member with early | rfl
      · exact swept.widened fk' early propagates
      · exact inside propagates
    · rw [inScope]
      rcases member with early | rfl
      · exact mem_append_left _ (swept.widened fk' early propagates)
      · exact mem_append_right _ (mem_singleton_self _)
  · rw [Search.widen_seenEdge, Search.widen_out]
    rcases keeping with ⟨-, seen, out⟩ | ⟨-, seen, out⟩
    · rw [seen, out, swept.keys]
    · rw [seen, out, swept.keys, map_append, map_singleton]
  · rw [Search.widen_seenEdge]
    rcases keeping with ⟨-, seen, -⟩ | ⟨unseen, seen, -⟩
    · rw [seen]
      exact swept.keysDistinct
    · rw [seen, ← concat_eq_append]
      exact swept.keysDistinct.concat unseen
  · intro fk' member
    rw [Search.widen_out] at member
    have earlier : fk' ∈ st.out → fk' ∈ st₀.out ∨ fk' ∈ batch ++ [fk] := fun inOut =>
      (swept.kept fk' inOut).imp_right (mem_append_left _)
    rcases keeping with ⟨-, -, out⟩ | ⟨-, -, out⟩
    · rw [out] at member
      exact earlier member
    · rw [out, mem_append] at member
      exact member.elim earlier fun new => .inr (mem_append_right _ new)
  · rw [Search.widen_out]
    rcases keeping with ⟨-, -, out⟩ | ⟨-, -, out⟩
    · rw [out]
      exact swept.still
    · rw [out]
      exact subset_append_of_subset_left _ swept.still
  · intro fk' member
    rw [Search.widen_seenEdge]
    rw [mem_append, mem_singleton] at member
    rcases keeping with ⟨inside, seen, -⟩ | ⟨-, seen, -⟩
    · rw [seen]
      rcases member with early | rfl
      · exact swept.seen fk' early
      · exact inside
    · rw [seen]
      rcases member with early | rfl
      · exact mem_append_left _ (swept.seen fk' early)
      · exact mem_append_right _ (mem_singleton_self _)

theorem swept_sweep (distinct : st₀.inScope.Nodup)
    (keys : st₀.seenEdge = st₀.out.map CascadeFK.edgeKey) (keysDistinct : st₀.seenEdge.Nodup)
    (batch : List CascadeFK) : Swept st₀ batch (st₀.sweep batch) := by
  unfold Search.sweep
  induction batch using reverseRecOn with
  | nil =>
    exact ⟨(append_nil _).symm, distinct, nofun, nofun, keys, keysDistinct,
      fun _ => .inl, List.Subset.refl _, nofun⟩
  | append_singleton batch fk ih =>
    rw [foldl_append]
    exact ih.visit fk

end Round

/-! ## All rounds -/

section Loop

variable {collate : String → String} {edges : List CascadeFK} {start : String} {st : Search}

/-- The keys that reference a schema of the list. -/
def Loaded (collate : String → String) (schemas : List String) (fk : CascadeFK) : Prop :=
  ∃ s ∈ schemas, collate s = collate fk.referencedSchema

/-- Between two rounds. The schemas scoped before the frontier, `earlier`, have been loaded. -/
structure SearchInv (collate : String → String) (edges : List CascadeFK) (start : String)
    (earlier : List String) (st : Search) : Prop where
  inScope : st.inScope = earlier ++ st.frontier
  distinct : st.inScope.Nodup
  known : st.inScope ⊆ start :: edges.map CascadeFK.schema
  first : start ∈ st.inScope
  reached : ∀ s ∈ st.inScope, Reaches collate edges start s
  keys : st.seenEdge = st.out.map CascadeFK.edgeKey
  keysDistinct : st.seenEdge.Nodup
  sound : ∀ fk ∈ st.out, fk ∈ edges ∧ Loaded collate earlier fk
  complete : ∀ fk ∈ edges, Loaded collate earlier fk →
    fk.edgeKey ∈ st.seenEdge ∧ (fk.propagates = true → fk.schema ∈ st.inScope)

theorem SearchInv.init (collate : String → String) (edges : List CascadeFK) (start : String) :
    SearchInv collate edges start [] { frontier := [start], inScope := [start] } where
  inScope := rfl
  distinct := List.nodup_singleton start
  known := by simp
  first := mem_singleton_self start
  reached := by
    intro s member
    rw [mem_singleton.mp member]
    exact .start
  keys := rfl
  keysDistinct := nodup_nil
  sound := nofun
  complete := by
    rintro fk - ⟨s, member, -⟩
    exact absurd member not_mem_nil

theorem mem_batchOf {frontier : List String} {fk : CascadeFK} :
    fk ∈ batchOf collate edges frontier ↔ fk ∈ edges ∧ Loaded collate frontier fk := by
  simp [batchOf, Loaded]

theorem SearchInv.advance {earlier : List String} (inv : SearchInv collate edges start earlier st) :
    SearchInv collate edges start (earlier ++ st.frontier)
      (st.advance (batchOf collate edges st.frontier)) := by
  have swept :=
    swept_sweep inv.distinct inv.keys inv.keysDistinct (batchOf collate edges st.frontier)
  have loaded {fk : CascadeFK} : Loaded collate (earlier ++ st.frontier) fk →
      Loaded collate earlier fk ∨ Loaded collate st.frontier fk := by
    rintro ⟨s, member, same⟩
    exact (mem_append.mp member).imp (fun early => ⟨s, early, same⟩) fun late => ⟨s, late, same⟩
  have frontier : ∀ s ∈ st.frontier, s ∈ st.inScope := fun s member => by
    rw [inv.inScope]
    exact mem_append_right _ member
  have new : ∀ s ∈ (st.sweep (batchOf collate edges st.frontier)).next,
      s ∈ edges.map CascadeFK.schema ∧ Reaches collate edges start s := by
    intro s member
    obtain ⟨fk, inBatch, propagates, rfl⟩ := swept.fromBatch s member
    obtain ⟨inEdges, s, inFrontier, same⟩ := mem_batchOf.mp inBatch
    exact ⟨mem_map_of_mem inEdges,
      .through inEdges (inv.reached s (frontier s inFrontier)) same propagates⟩
  refine ⟨?_, swept.distinct, ?_, ?_, ?_, swept.keys, swept.keysDistinct, ?_, ?_⟩
  · exact swept.inScope.trans (by rw [inv.inScope]; rfl)
  · intro s member
    rw [Search.advance, swept.inScope, mem_append] at member
    exact member.elim (fun old => inv.known old) fun isNew => mem_cons_of_mem _ (new s isNew).1
  · rw [Search.advance, swept.inScope]
    exact mem_append_left _ inv.first
  · intro s member
    rw [Search.advance, swept.inScope, mem_append] at member
    exact member.elim (inv.reached s) fun isNew => (new s isNew).2
  · intro fk member
    rcases swept.kept fk member with old | inBatch
    · obtain ⟨inEdges, s, early, same⟩ := inv.sound fk old
      exact ⟨inEdges, s, mem_append_left _ early, same⟩
    · obtain ⟨inEdges, s, late, same⟩ := mem_batchOf.mp inBatch
      exact ⟨inEdges, s, mem_append_right _ late, same⟩
  · intro fk inEdges isLoaded
    rcases loaded isLoaded with early | late
    · obtain ⟨seen, widened⟩ := inv.complete fk inEdges early
      constructor
      · rw [inv.keys] at seen
        rw [Search.advance, swept.keys]
        exact map_subset _ swept.still seen
      · intro propagates
        rw [Search.advance, swept.inScope]
        exact mem_append_left _ (widened propagates)
    · have inBatch := mem_batchOf.mpr ⟨inEdges, late⟩
      exact ⟨swept.seen fk inBatch, swept.widened fk inBatch⟩

/-- With an empty frontier every reachable schema has been loaded. -/
theorem SearchInv.inScope_of_reaches {earlier : List String}
    (inv : SearchInv collate edges start earlier st) (done : st.frontier = []) {s : String}
    (reaches : Reaches collate edges start s) : s ∈ earlier := by
  have all : st.inScope = earlier := by rw [inv.inScope, done, append_nil]
  induction reaches with
  | start => exact all ▸ inv.first
  | @through fk s known _ references propagates ih =>
    exact all ▸ (inv.complete fk known ⟨s, ih, references⟩).2 propagates

/-- The keys a search gave back are the reachable ones, each column of a key once. -/
structure Exact (collate : String → String) (edges : List CascadeFK) (start : String)
    (out : List CascadeFK) : Prop where
  sound : ∀ fk ∈ out, Reachable collate edges start fk
  complete : ∀ fk, Reachable collate edges start fk → ∃ fk' ∈ out, fk'.edgeKey = fk.edgeKey
  once : (out.map CascadeFK.edgeKey).Nodup

theorem SearchInv.exact {earlier : List String} (inv : SearchInv collate edges start earlier st)
    (done : st.frontier = []) : Exact collate edges start st.out where
  sound := by
    intro fk member
    obtain ⟨inEdges, s, early, same⟩ := inv.sound fk member
    refine ⟨inEdges, s, inv.reached s ?_, same⟩
    rw [inv.inScope]
    exact mem_append_left _ early
  complete := by
    rintro fk ⟨inEdges, s, reaches, same⟩
    have seen := (inv.complete fk inEdges ⟨s, inv.inScope_of_reaches done reaches, same⟩).1
    rw [inv.keys] at seen
    exact mem_map.mp seen
  once := inv.keys ▸ inv.keysDistinct

theorem SearchInv.length_inScope_le {earlier : List String}
    (inv : SearchInv collate edges start earlier st) : st.inScope.length ≤ edges.length + 1 := by
  have le := (inv.distinct.subperm inv.known).length_le
  rwa [length_cons, length_map] at le

/-- Each round but the last scopes a new schema. -/
theorem closureLoop_ends {fuel : ℕ} {earlier : List String}
    (inv : SearchInv collate edges start earlier st)
    (enough : st.frontier = [] ∧ 1 ≤ fuel ∨ edges.length + 3 ≤ fuel + st.inScope.length) :
    ∃ out, closureLoop (loadByReferencedSchema collate edges) fuel st = .ok (some out) ∧
      Exact collate edges start out := by
  induction fuel generalizing st earlier with
  | zero =>
    have few := inv.length_inScope_le
    omega
  | succ fuel ih =>
    rw [closureLoop]
    by_cases done : st.frontier = []
    · rw [if_pos (by rw [done]; rfl)]
      exact ⟨st.out, rfl, inv.exact done⟩
    · rw [if_neg (by rwa [List.isEmpty_iff])]
      refine ih inv.advance ?_
      have few := inv.length_inScope_le
      have rounds := enough.resolve_left fun empty => done empty.1
      have grown : (st.advance (batchOf collate edges st.frontier)).inScope.length =
          st.inScope.length + (st.advance (batchOf collate edges st.frontier)).frontier.length := by
        rw [inv.advance.inScope, List.length_append, inv.inScope]
      rcases List.eq_nil_or_concat
          (st.advance (batchOf collate edges st.frontier)).frontier with empty | ⟨_, _, some_⟩
      · exact .inl ⟨empty, by omega⟩
      · rw [some_, List.length_concat] at grown
        exact .inr (by omega)

end Loop

/-- The search ends, and gives back exactly the keys that reference a schema reachable from the
start, one for each column of a key. -/
theorem loadCascadeClosure_exact (collate : String → String) (edges : List CascadeFK)
    (start : String) {fuel : ℕ} (enough : edges.length + 2 ≤ fuel) :
    ∃ out, loadCascadeClosure fuel start (loadByReferencedSchema collate edges) = .ok (some out) ∧
      Exact collate edges start out :=
  closureLoop_ends (SearchInv.init collate edges start) (.inr (by simpa using enough))

/-! ## From one table -/

/-- The tables that a change of the table `start` can reach. -/
inductive ReachesTable (edges : List CascadeFK) (start : String × String) :
    String × String → Prop where
  | start : ReachesTable edges start start
  | through {fk : CascadeFK} (known : fk ∈ edges)
      (parent : ReachesTable edges start (fk.referencedSchema, fk.referencedTable))
      (propagates : fk.propagates = true) : ReachesTable edges start (fk.schema, fk.table)

/-- `shop.profile` is a child of `shop.user`, and of itself. -/
def profileKeys : List CascadeFK :=
  [⟨"shop", "profile", "fk_user", "user_id", "shop", "user", "id", "CASCADE", "NO ACTION", false⟩,
    ⟨"shop", "profile", "fk_parent", "parent_id", "shop", "profile", "id", "NO ACTION", "CASCADE",
      false⟩]

theorem profileKeys_exact :
    ∃ out, loadCascadeClosure 4 "shop" (loadByReferencedSchema id profileKeys) = .ok (some out) ∧
      Exact id profileKeys "shop" out :=
  loadCascadeClosure_exact id profileKeys "shop" (by decide)

/-- No change of `shop.orders` reaches a profile, and the keys of the profiles are loaded for it:
they reference tables of the same schema. -/
theorem profileKeys_loaded :
    loadCascadeClosure 4 "shop" (loadByReferencedSchema id profileKeys) =
        .ok (some profileKeys) ∧
      ∀ fk ∈ profileKeys,
        ¬ReachesTable profileKeys ("shop", "orders") (fk.referencedSchema, fk.referencedTable) := by
  have parents : ∀ fk ∈ profileKeys,
      (fk.referencedSchema, fk.referencedTable) ≠ ("shop", "orders") := by decide
  have only : ∀ t, ReachesTable profileKeys ("shop", "orders") t → t = ("shop", "orders") := by
    intro t reaches
    induction reaches with
    | start => rfl
    | @through fk known _ _ ih => exact absurd ih (parents fk known)
  exact ⟨rfl, fun fk known reaches => parents fk known (only _ reaches)⟩

end Dbtrail.Cascade
