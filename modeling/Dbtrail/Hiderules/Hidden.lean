import Dbtrail.Hiderules.Parse

/-!
# What the hide rules hide

`parseRules` (`Parse`) reads the two lists of entries and keeps the first of those
that are spelled alike in lower case; `tableHidden` and `columnHidden` match a
name against what was kept, rune by rune in the folding orbits. The two notions
of case differ: the lower case of U+0130 is `i`, which is not in its orbit. An
entry that differs from an earlier one only there is dropped as a repeat, and
nothing else hides what it names.

`parseRules_hides_iff` says which lists lose nothing, and that the canonical
lists of a set always read back as the set.
-/

namespace Dbtrail

open List

variable (u : Unicode)

structure TableRule : Type where
  schema : List Char
  table : List Char
  allTables : Bool
  deriving DecidableEq, Repr

structure ColumnRule : Type where
  schema : List Char
  table : List Char
  column : List Char
  allTables : Bool
  deriving DecidableEq, Repr

def canonTable (t : TableRule) : List Char :=
  quote u t.schema false ++ '.' :: quote u t.table t.allTables

def canonColumn (c : ColumnRule) : List Char :=
  quote u c.schema false ++ '.' :: (quote u c.table c.allTables ++ '.' :: quote u c.column false)

/-- The stored form: one entry per item. -/
structure Rules : Type where
  tables : List (List Char) := []
  columns : List (List Char) := []
  deriving DecidableEq, Repr

/-- A parsed, deduplicated rule list. -/
structure HideSet : Type where
  tables : List TableRule := []
  columns : List ColumnRule := []
  deriving DecidableEq, Repr

def maxEntries : ℕ := 1000

/-- The rule of a table entry, `none` for a blank one. -/
def readTable (raw : List Char) : Except EntryError (Option TableRule) :=
  if u.trimSpace raw = [] then .ok none
  else do
    let ps ← splitEntry u raw
    match ps with
    | [_] => .error .writeAsTable
    | [_, _, _] => .error .threeParts
    | [s, t] =>
        if s.wild then .error .schemaWildcard
        else return some { schema := s.name, table := t.name, allTables := t.wild }
    | _ => .error .writeAsTable

/-- The rule of a column entry, `none` for a blank one. -/
def readColumn (raw : List Char) : Except EntryError (Option ColumnRule) :=
  if u.trimSpace raw = [] then .ok none
  else do
    let ps ← splitEntry u raw
    match ps with
    | [s, t, c] =>
        if s.wild then .error .schemaWildcard
        else if c.wild then .error .columnWildcard
        else
          return some { schema := s.name, table := t.name, column := c.name, allTables := t.wild }
    | _ => .error .writeAsColumn

/-- The state of one of the two loops of `Parse`. -/
structure Listed (ρ : Type) : Type where
  seen : List (List Char) := []
  kept : List ρ := []
  problems : List (List Char × EntryError) := []

section Loop

variable {ρ : Type} (read : List Char → Except EntryError (Option ρ)) (canon : ρ → List Char)

/-- One entry of a loop of `Parse`. -/
def listEntry (st : Listed ρ) (raw : List Char) : Listed ρ :=
  match read raw with
  | .error err => { st with problems := st.problems ++ [(raw, err)] }
  | .ok none => st
  | .ok (some rule) =>
      if u.lower (canon rule) ∈ st.seen then st
      else { st with seen := u.lower (canon rule) :: st.seen, kept := st.kept ++ [rule] }

def listEntries (raws : List (List Char)) : Listed ρ := raws.foldl (listEntry u read canon) {}

end Loop

/-- What `Parse` refuses: each entry with its reason, or lists that are too long. -/
inductive RulesProblem : Type
  | table (raw : List Char) (err : EntryError)
  | column (raw : List Char) (err : EntryError)
  | tooMany
  deriving DecidableEq, Repr

def rulesProblems (t : Listed TableRule) (c : Listed ColumnRule) : List RulesProblem :=
  (t.problems.map fun p => RulesProblem.table p.1 p.2) ++
    (c.problems.map fun p => RulesProblem.column p.1 p.2) ++
    (if maxEntries < t.kept.length ∨ maxEntries < c.kept.length then [.tooMany] else [])

/-- `Parse`. -/
def parseRules (r : Rules) : Except (List RulesProblem) HideSet :=
  let t := listEntries u (readTable u) (canonTable u) r.tables
  let c := listEntries u (readColumn u) (canonColumn u) r.columns
  if rulesProblems t c = [] then .ok { tables := t.kept, columns := c.kept }
  else .error (rulesProblems t c)

/-- The canonical lists of a set. -/
def HideSet.rules (s : HideSet) : Rules where
  tables := s.tables.map (canonTable u)
  columns := s.columns.map (canonColumn u)

/-! ## Matching -/

def TableRule.names (t : TableRule) (schema table : List Char) : Bool :=
  u.equalFold t.schema schema && (t.allTables || u.equalFold t.table table)

def HideSet.tableHidden (s : HideSet) (schema table : List Char) : Bool :=
  s.tables.any fun t => t.names u schema table

def ColumnRule.appliesTo (c : ColumnRule) (schema table : List Char) : Bool :=
  u.equalFold c.schema schema && (c.allTables || u.equalFold c.table table)

def ColumnRule.names (c : ColumnRule) (schema table column : List Char) : Bool :=
  c.appliesTo u schema table && u.equalFold c.column column

/-- The columns some rules hide in a table, as the rules spell them. -/
def hiddenColumnsOf (rules : List ColumnRule) (schema table : List Char) : List (List Char) :=
  firstOfEach u.lower ((rules.filter fun c => c.appliesTo u schema table).map ColumnRule.column)

def HideSet.hiddenColumns (s : HideSet) (schema table : List Char) : List (List Char) :=
  hiddenColumnsOf u s.columns schema table

def HideSet.columnHidden (s : HideSet) (schema table column : List Char) : Bool :=
  (s.hiddenColumns u schema table).any fun c => u.equalFold c column

/-! ## What the entries name -/

/-- The rules of the entries that are not blank, in order. -/
def rulesOf {ρ : Type} (read : List Char → Except EntryError (Option ρ))
    (raws : List (List Char)) : List ρ :=
  raws.filterMap fun raw => (read raw).toOption.join

/-- Some table entry names the table. -/
def TableNamed (r : Rules) (schema table : List Char) : Prop :=
  ∃ raw ∈ r.tables, ∃ t, readTable u raw = .ok (some t) ∧ t.names u schema table = true

/-- Some column entry names the column. -/
def ColumnNamed (r : Rules) (schema table column : List Char) : Prop :=
  ∃ raw ∈ r.columns, ∃ c, readColumn u raw = .ok (some c) ∧ c.names u schema table column = true

/-- Whatever the second rule names, the first names too. -/
def TableRule.covers (a b : TableRule) : Bool :=
  u.equalFold a.schema b.schema && (a.allTables || !b.allTables && u.equalFold a.table b.table)

/-- Some entry hides the rule's column in the table. It is the first of its lower case spelling,
and none in front of it that is and applies to the table has its lower case column. -/
def ColumnKept (rules : List ColumnRule) (c : ColumnRule) (table : List Char) : Prop :=
  ∃ front c' back, rules = front ++ c' :: back ∧ c'.appliesTo u c.schema table = true ∧
    u.equalFold c'.column c.column = true ∧
    (∀ d ∈ front, u.lower (canonColumn u d) ≠ u.lower (canonColumn u c')) ∧
    ∀ d, FirstBy (fun c => u.lower (canonColumn u c)) front d →
      d.appliesTo u c.schema table = true → u.lower d.column ≠ u.lower c'.column

/-- No restriction is dropped as a repeat of another one: a table entry is
covered by one that is the first of its lower case spelling, and a column entry's
column is kept in every table it applies to. -/
structure Unshadowed (r : Rules) : Prop where
  tables : ∀ t ∈ rulesOf (readTable u) r.tables, ∃ t',
    FirstBy (fun t => u.lower (canonTable u t)) (rulesOf (readTable u) r.tables) t' ∧
      t'.covers u t = true
  columns : ∀ c ∈ rulesOf (readColumn u) r.columns, ∀ table,
    c.appliesTo u c.schema table = true → ColumnKept u (rulesOf (readColumn u) r.columns) c table

variable {u} {a b schema table : List Char} {r : Rules} {s : HideSet} {t : TableRule}

theorem Unicode.equalFold_iff : u.equalFold a b = true ↔ a.map u.orbit = b.map u.orbit := by
  rw [Unicode.equalFold, beq_iff_eq]

theorem Unicode.equalFold_refl (a : List Char) : u.equalFold a a = true :=
  equalFold_iff.mpr rfl

theorem Unicode.equalFold_trans {c : List Char} (ab : u.equalFold a b = true)
    (bc : u.equalFold b c = true) : u.equalFold a c = true :=
  equalFold_iff.mpr ((equalFold_iff.mp ab).trans (equalFold_iff.mp bc))

theorem Unicode.equalFold_length (ab : u.equalFold a b = true) : a.length = b.length := by
  simpa using congrArg length (equalFold_iff.mp ab)

/-! ## The loops of `Parse` -/

section Loop

variable {ρ : Type} {read : List Char → Except EntryError (Option ρ)} {canon : ρ → List Char}

theorem foldl_listEntry_kept (raws : List (List Char)) (st : Listed ρ) :
    (raws.foldl (listEntry u read canon) st).kept =
      st.kept ++ firstOfEachFrom (fun r => u.lower (canon r)) st.seen (rulesOf read raws) := by
  induction raws generalizing st with
  | nil => simp [rulesOf, firstOfEachFrom]
  | cons raw rest ih =>
    rw [foldl_cons, ih]
    unfold listEntry rulesOf
    cases entry : read raw with
    | error err => rw [filterMap_cons_none (by simp [entry, Except.toOption])]
    | ok rule =>
      cases rule with
      | none => rw [filterMap_cons_none (by simp [entry, Except.toOption])]
      | some rule =>
        rw [filterMap_cons_some (by simp [entry, Except.toOption] : _ = some rule),
          firstOfEachFrom]
        dsimp only
        split
        · rfl
        · rw [append_assoc, singleton_append]

theorem foldl_listEntry_problems (raws : List (List Char)) (st : Listed ρ) :
    (raws.foldl (listEntry u read canon) st).problems = [] ↔
      st.problems = [] ∧ ∀ raw ∈ raws, ∃ rule, read raw = .ok rule := by
  induction raws generalizing st with
  | nil => simp
  | cons raw rest ih =>
    rw [foldl_cons, ih, forall_mem_cons, ← and_assoc]
    refine and_congr_left fun _ => ?_
    unfold listEntry
    cases entry : read raw with
    | error err => simp
    | ok rule =>
      cases rule with
      | none => simp
      | some rule =>
        dsimp only
        split <;> simp

theorem listEntries_kept (raws : List (List Char)) :
    (listEntries u read canon raws).kept =
      firstOfEach (fun r => u.lower (canon r)) (rulesOf read raws) := by
  rw [listEntries, foldl_listEntry_kept]
  rfl

theorem listEntries_problems (raws : List (List Char)) :
    (listEntries u read canon raws).problems = [] ↔
      ∀ raw ∈ raws, ∃ rule, read raw = .ok rule := by
  rw [listEntries, foldl_listEntry_problems]
  simp

theorem mem_rulesOf {raws : List (List Char)} {rule : ρ} :
    rule ∈ rulesOf read raws ↔ ∃ raw ∈ raws, read raw = .ok (some rule) := by
  unfold rulesOf
  rw [mem_filterMap]
  refine exists_congr fun raw => and_congr_right fun _ => ?_
  cases read raw with
  | error | ok => simp [Except.toOption]

/-- Rules whose canonical spelling reads back make up the list they came from. -/
theorem rulesOf_canon {rules : List ρ} (reads : ∀ r ∈ rules, read (canon r) = .ok (some r)) :
    rulesOf read (rules.map canon) = rules := by
  induction rules with
  | nil => rfl
  | cons r rest ih =>
    have head := reads r (by simp)
    have tail := ih fun r' member => reads r' (by simp [member])
    unfold rulesOf at tail ⊢
    rw [map_cons, filterMap_cons_some (by simp [head, Except.toOption] : _ = some r),
      tail]

end Loop

theorem rulesProblems_eq_nil {t : Listed TableRule} {c : Listed ColumnRule} :
    rulesProblems t c = [] ↔ t.problems = [] ∧ c.problems = [] ∧
      t.kept.length ≤ maxEntries ∧ c.kept.length ≤ maxEntries := by
  unfold rulesProblems
  rw [append_eq_nil_iff, append_eq_nil_iff, map_eq_nil_iff, map_eq_nil_iff,
    and_assoc, ← not_lt, ← not_lt, ← not_or]
  refine and_congr_right fun _ => and_congr_right fun _ => ?_
  split
  · simp_all
  · simp_all

theorem parseRules_ok_iff :
    parseRules u r = .ok s ↔
      (∀ raw ∈ r.tables, ∃ rule, readTable u raw = .ok rule) ∧
      (∀ raw ∈ r.columns, ∃ rule, readColumn u raw = .ok rule) ∧
      s.tables = firstOfEach (fun t => u.lower (canonTable u t)) (rulesOf (readTable u) r.tables) ∧
      s.columns =
        firstOfEach (fun c => u.lower (canonColumn u c)) (rulesOf (readColumn u) r.columns) ∧
      s.tables.length ≤ maxEntries ∧ s.columns.length ≤ maxEntries := by
  have problems := rulesProblems_eq_nil (t := listEntries u (readTable u) (canonTable u) r.tables)
    (c := listEntries u (readColumn u) (canonColumn u) r.columns)
  rw [listEntries_problems, listEntries_problems, listEntries_kept, listEntries_kept] at problems
  unfold parseRules
  dsimp only
  rw [listEntries_kept, listEntries_kept]
  obtain ⟨tables, columns⟩ := s
  split
  · rename_i accepted
    obtain ⟨readTables, readColumns, fits⟩ := problems.mp accepted
    constructor
    · intro same
      cases same
      exact ⟨readTables, readColumns, rfl, rfl, fits⟩
    · rintro ⟨-, -, rfl, rfl, -⟩
      rfl
  · rename_i refused
    constructor
    · intro same
      cases same
    · rintro ⟨readTables, readColumns, rfl, rfl, fits⟩
      exact absurd (problems.mpr ⟨readTables, readColumns, fits⟩) refused

/-! ## Reading the canonical lists back -/

/-- The names of a table rule can be spelled again. -/
structure TableRule.Good (u : Unicode) (t : TableRule) : Prop where
  schema : GoodName u t.schema
  table : GoodName u t.table
  star : t.allTables = true → t.table = ['*']

structure ColumnRule.Good (u : Unicode) (c : ColumnRule) : Prop where
  schema : GoodName u c.schema
  table : GoodName u c.table
  column : GoodName u c.column
  star : c.allTables = true → c.table = ['*']

theorem Part.name_of_wild {p : Part} (wild : p.wild = true) : p.name = ['*'] := by
  unfold Part.wild at wild
  rw [Bool.and_eq_true, beq_iff_eq] at wild
  exact wild.2

theorem readTable_good {raw : List Char} (ok : readTable u raw = .ok (some t)) : t.Good u := by
  unfold readTable at ok
  split at ok
  · cases ok
  · obtain ⟨ps, split_ok, ok⟩ := Except.bind_eq_ok ok
    have good := splitEntry_ok split_ok
    split at ok
    · cases ok
    · cases ok
    · split at ok
      · cases ok
      · cases ok
        exact ⟨good _ (by simp), good _ (by simp), Part.name_of_wild⟩
    · cases ok

theorem readColumn_good {raw : List Char} {c : ColumnRule}
    (ok : readColumn u raw = .ok (some c)) : c.Good u := by
  unfold readColumn at ok
  split at ok
  · cases ok
  · obtain ⟨ps, split_ok, ok⟩ := Except.bind_eq_ok ok
    have good := splitEntry_ok split_ok
    split at ok
    · split at ok
      · cases ok
      · split at ok
        · cases ok
        · cases ok
          exact ⟨good _ (by simp), good _ (by simp), good _ (by simp), Part.name_of_wild⟩
    · cases ok

/-- A text with a dot in it is not blank. -/
theorem trimSpace_ne_nil {front back : List Char} : u.trimSpace (front ++ '.' :: back) ≠ [] := by
  intro empty
  unfold Unicode.trimSpace at empty
  rw [rdropWhile_eq_nil_iff] at empty
  have kept : '.' ∈ (front ++ '.' :: back).dropWhile u.isSpace := by
    induction front with
    | nil => simp [u.dot_space]
    | cons c front ih =>
      rw [cons_append, dropWhile_cons]
      split
      · apply ih
        intro x member
        apply empty
        rw [cons_append, dropWhile_cons, if_pos (by assumption)]
        exact member
      · simp
  have spaced := empty _ kept
  rw [u.dot_space] at spaced
  cases spaced

theorem readTable_canon (good : t.Good u) : readTable u (canonTable u t) = .ok (some t) := by
  have parts : splitEntry u (canonTable u t) =
      .ok [canonPart u t.schema false, canonPart u t.table t.allTables] := by
    exact splitEntry_canon [(t.schema, false), (t.table, t.allTables)] (by simp)
      (by simpa using ⟨good.schema, good.table⟩) (by simpa using good.star)
  unfold readTable
  rw [if_neg (by unfold canonTable; exact trimSpace_ne_nil), parts]
  simp only [bind, Except.bind, canonPart_wild, Bool.false_eq_true, if_false, pure, Except.pure,
    canonPart_name good.star, canonPart_name (nofun : false = true → t.schema = ['*'])]

theorem readColumn_canon {c : ColumnRule} (good : c.Good u) :
    readColumn u (canonColumn u c) = .ok (some c) := by
  have parts : splitEntry u (canonColumn u c) =
      .ok [canonPart u c.schema false, canonPart u c.table c.allTables,
        canonPart u c.column false] := by
    exact splitEntry_canon [(c.schema, false), (c.table, c.allTables), (c.column, false)]
      (by simp) (by simpa using ⟨good.schema, good.table, good.column⟩) (by simpa using good.star)
  unfold readColumn
  rw [if_neg (by unfold canonColumn; exact trimSpace_ne_nil), parts]
  simp only [bind, Except.bind, canonPart_wild, Bool.false_eq_true, if_false, pure, Except.pure,
    canonPart_name good.star, canonPart_name (nofun : false = true → c.schema = ['*']),
    canonPart_name (nofun : false = true → c.column = ['*'])]

/-- The canonical lists of a set are accepted and give the same set. -/
theorem parseRules_rules (ok : parseRules u r = .ok s) : parseRules u (s.rules u) = .ok s := by
  obtain ⟨-, -, tables, columns, fits⟩ := parseRules_ok_iff.mp ok
  have tableReads : ∀ t ∈ s.tables, readTable u (canonTable u t) = .ok (some t) := by
    intro t member
    rw [tables] at member
    obtain ⟨raw, -, read⟩ := mem_rulesOf.mp ((firstOfEachFrom_sublist [] _).subset member)
    exact readTable_canon (readTable_good read)
  have columnReads : ∀ c ∈ s.columns, readColumn u (canonColumn u c) = .ok (some c) := by
    intro c member
    rw [columns] at member
    obtain ⟨raw, -, read⟩ := mem_rulesOf.mp ((firstOfEachFrom_sublist [] _).subset member)
    exact readColumn_canon (readColumn_good read)
  refine parseRules_ok_iff.mpr ⟨?_, ?_, ?_, ?_, fits⟩
  · exact forall_mem_map.mpr fun t inSet => ⟨_, tableReads t inSet⟩
  · exact forall_mem_map.mpr fun c inSet => ⟨_, columnReads c inSet⟩
  · have distinct : (s.tables.map fun t => u.lower (canonTable u t)).Nodup :=
      tables ▸ firstOfEachFrom_nodup [] _
    rw [HideSet.rules, rulesOf_canon tableReads, firstOfEach_of_nodup distinct]
  · have distinct : (s.columns.map fun c => u.lower (canonColumn u c)).Nodup :=
      columns ▸ firstOfEachFrom_nodup [] _
    rw [HideSet.rules, rulesOf_canon columnReads, firstOfEach_of_nodup distinct]

/-! ## Nothing lost -/

theorem TableRule.names_of_covers {a b : TableRule} (covers : a.covers u b = true)
    (named : b.names u schema table = true) :
    a.names u schema table = true := by
  unfold TableRule.covers at covers
  unfold TableRule.names at named ⊢
  simp only [Bool.and_eq_true, Bool.or_eq_true, Bool.not_eq_true'] at covers named ⊢
  refine ⟨Unicode.equalFold_trans covers.1 named.1, ?_⟩
  rcases covers.2 with all | ⟨single, same⟩
  · exact Or.inl all
  · rcases named.2 with all | table
    · rw [single] at all
      cases all
    · exact Or.inr (Unicode.equalFold_trans same table)

/-- A name longer than every table some rules spell out. -/
def unnamedTable (rules : List TableRule) : List Char :=
  List.replicate ((rules.map fun t => t.table.length).sum + 1) 'a'

theorem allTables_of_names_unnamed {rules : List TableRule} (member : t ∈ rules)
    (named : t.names u schema (unnamedTable rules) = true) :
    t.allTables = true := by
  unfold TableRule.names at named
  rw [Bool.and_eq_true, Bool.or_eq_true] at named
  rcases named.2 with all | same
  · exact all
  · have length := Unicode.equalFold_length same
    have below := single_le_sum (by simp) _
      (mem_map_of_mem (f := fun t : TableRule => t.table.length) member)
    rw [unnamedTable, length_replicate] at length
    omega

theorem tableNamed_iff :
    TableNamed u r schema table ↔
      ∃ t ∈ rulesOf (readTable u) r.tables, t.names u schema table = true := by
  unfold TableNamed
  constructor
  · rintro ⟨raw, inList, t, read, named⟩
    exact ⟨t, mem_rulesOf.mpr ⟨raw, inList, read⟩, named⟩
  · rintro ⟨t, member, named⟩
    obtain ⟨raw, inList, read⟩ := mem_rulesOf.mp member
    exact ⟨raw, inList, t, read, named⟩

theorem columnNamed_iff {column : List Char} :
    ColumnNamed u r schema table column ↔
      ∃ c ∈ rulesOf (readColumn u) r.columns, c.names u schema table column = true := by
  unfold ColumnNamed
  constructor
  · rintro ⟨raw, inList, c, read, named⟩
    exact ⟨c, mem_rulesOf.mpr ⟨raw, inList, read⟩, named⟩
  · rintro ⟨c, member, named⟩
    obtain ⟨raw, inList, read⟩ := mem_rulesOf.mp member
    exact ⟨raw, inList, c, read, named⟩

theorem tableHidden_iff :
    s.tableHidden u schema table = true ↔ ∃ t ∈ s.tables, t.names u schema table = true := by
  unfold HideSet.tableHidden
  rw [any_eq_true]

/-- A kept table rule hides only what it names, and every table entry is hidden
when each has one kept that covers it. -/
theorem tableHidden_exact_iff (tables : s.tables =
      firstOfEach (fun t => u.lower (canonTable u t)) (rulesOf (readTable u) r.tables)) :
    (∀ schema table, s.tableHidden u schema table = true ↔ TableNamed u r schema table) ↔
      ∀ t ∈ rulesOf (readTable u) r.tables, ∃ t',
        FirstBy (fun t => u.lower (canonTable u t)) (rulesOf (readTable u) r.tables) t' ∧
          t'.covers u t = true := by
  have kept : ∀ t, t ∈ s.tables ↔
      FirstBy (fun t => u.lower (canonTable u t)) (rulesOf (readTable u) r.tables) t := by
    intro t
    rw [tables, mem_firstOfEach_iff]
  constructor
  · intro exact t member
    by_cases all : t.allTables = true
    · -- a wildcard is covered by a wildcard: no list of single tables names them all
      have named : t.names u t.schema (unnamedTable (rulesOf (readTable u) r.tables)) = true := by
        simp [TableRule.names, all, Unicode.equalFold_refl]
      obtain ⟨t', inSet, hides⟩ := tableHidden_iff.mp
        ((exact _ _).mpr (tableNamed_iff.mpr ⟨t, member, named⟩))
      have inRules : t' ∈ rulesOf (readTable u) r.tables :=
        (firstOfEachFrom_sublist [] _).subset (tables ▸ inSet)
      have all' := allTables_of_names_unnamed inRules hides
      refine ⟨t', (kept t').mp inSet, ?_⟩
      unfold TableRule.names at hides
      rw [Bool.and_eq_true] at hides
      simp [TableRule.covers, hides.1, all']
    · have named : t.names u t.schema t.table = true := by
        simp [TableRule.names, Unicode.equalFold_refl]
      obtain ⟨t', inSet, hides⟩ := tableHidden_iff.mp
        ((exact _ _).mpr (tableNamed_iff.mpr ⟨t, member, named⟩))
      refine ⟨t', (kept t').mp inSet, ?_⟩
      unfold TableRule.names at hides
      unfold TableRule.covers
      simpa [all] using hides
  · intro covered schema table
    rw [tableHidden_iff, tableNamed_iff]
    constructor
    · rintro ⟨t, inSet, named⟩
      exact ⟨t, (firstOfEachFrom_sublist [] _).subset (tables ▸ inSet), named⟩
    · rintro ⟨t, member, named⟩
      obtain ⟨t', first, covers⟩ := covered t member
      exact ⟨t', (kept t').mpr first, TableRule.names_of_covers covers named⟩

theorem columnHidden_iff {column : List Char} :
    s.columnHidden u schema table column = true ↔ ∃ c,
      FirstBy (fun c => u.lower c.column) (s.columns.filter fun c => c.appliesTo u schema table) c ∧
        u.equalFold c.column column = true := by
  unfold HideSet.columnHidden HideSet.hiddenColumns hiddenColumnsOf
  simp only [any_eq_true, mem_firstOfEach_iff, firstBy_map]
  constructor
  · rintro ⟨_, ⟨c, first, rfl⟩, same⟩
    exact ⟨c, first, same⟩
  · rintro ⟨c, first, same⟩
    exact ⟨_, ⟨c, first, rfl⟩, same⟩

theorem ColumnRule.appliesTo_congr (same : u.equalFold a b = true) (c : ColumnRule)
    (table : List Char) : c.appliesTo u a table = c.appliesTo u b table := by
  unfold ColumnRule.appliesTo Unicode.equalFold
  rw [Unicode.equalFold_iff.mp same]

/-- The entry that hides a column, among all the entries. -/
theorem columnKept_iff {rules : List ColumnRule} {c : ColumnRule} :
    ColumnKept u rules c table ↔ ∃ c', FirstBy (fun c => u.lower c.column)
      ((firstOfEach (fun c => u.lower (canonColumn u c)) rules).filter fun c' =>
        c'.appliesTo u c.schema table) c' ∧ u.equalFold c'.column c.column = true := by
  simp only [firstBy_filter_firstOfEach]
  constructor
  · rintro ⟨front, c', back, eq, applies, same, new, newColumn⟩
    exact ⟨c', ⟨applies, front, back, eq, new, newColumn⟩, same⟩
  · rintro ⟨c', ⟨applies, front, back, eq, new, newColumn⟩, same⟩
    exact ⟨front, c', back, eq, applies, same, new, newColumn⟩

theorem columnHidden_exact_iff (columns : s.columns =
      firstOfEach (fun c => u.lower (canonColumn u c)) (rulesOf (readColumn u) r.columns)) :
    (∀ schema table column,
      s.columnHidden u schema table column = true ↔ ColumnNamed u r schema table column) ↔
      ∀ c ∈ rulesOf (readColumn u) r.columns, ∀ table,
        c.appliesTo u c.schema table = true →
          ColumnKept u (rulesOf (readColumn u) r.columns) c table := by
  simp only [columnKept_iff, ← columns]
  constructor
  · intro exact c member table applies
    have named : c.names u c.schema table c.column = true := by
      simp [ColumnRule.names, applies, Unicode.equalFold_refl]
    exact columnHidden_iff.mp ((exact _ _ _).mpr (columnNamed_iff.mpr ⟨c, member, named⟩))
  · intro covered schema table column
    rw [columnHidden_iff, columnNamed_iff]
    constructor
    · rintro ⟨c, ⟨front, back, eq, -⟩, same⟩
      have kept : c ∈ s.columns.filter fun c => c.appliesTo u schema table :=
        eq ▸ mem_append_cons_self
      obtain ⟨inSet, applies⟩ := mem_filter.mp kept
      refine ⟨c, (firstOfEachFrom_sublist [] _).subset (columns ▸ inSet), ?_⟩
      simp [ColumnRule.names, applies, same]
    · rintro ⟨c, member, named⟩
      unfold ColumnRule.names at named
      rw [Bool.and_eq_true] at named
      have sameSchema : u.equalFold c.schema schema = true := by
        have applies := named.1
        unfold ColumnRule.appliesTo at applies
        rw [Bool.and_eq_true] at applies
        exact applies.1
      -- what applies to the table is the same under the two spellings of its schema
      have applies := named.1
      rw [← ColumnRule.appliesTo_congr sameSchema] at applies
      obtain ⟨c', first, same⟩ := covered c member table applies
      refine ⟨c', ?_, Unicode.equalFold_trans same named.2⟩
      simpa only [ColumnRule.appliesTo_congr sameSchema] using first

/-- Which lists lose nothing. The entries `Parse` accepts hide exactly what they
name, and their canonical lists are accepted and hide the same, when no
restriction is dropped as a repeat of another one. -/
theorem parseRules_hides_iff (u : Unicode) {r : Rules} {s : HideSet}
    (ok : parseRules u r = .ok s) :
    ((∀ schema table, s.tableHidden u schema table = true ↔ TableNamed u r schema table) ∧
      (∀ schema table column,
        s.columnHidden u schema table column = true ↔ ColumnNamed u r schema table column) ∧
      ∃ s', parseRules u (s.rules u) = .ok s' ∧
        (∀ schema table, s'.tableHidden u schema table = s.tableHidden u schema table) ∧
        ∀ schema table column,
          s'.columnHidden u schema table column = s.columnHidden u schema table column) ↔
      Unshadowed u r := by
  obtain ⟨-, -, tables, columns, -⟩ := parseRules_ok_iff.mp ok
  rw [tableHidden_exact_iff tables, columnHidden_exact_iff columns]
  constructor
  · rintro ⟨tablesKept, columnsKept, -⟩
    exact ⟨tablesKept, columnsKept⟩
  · rintro ⟨tablesKept, columnsKept⟩
    exact ⟨tablesKept, columnsKept, s, parseRules_rules ok, fun _ _ => rfl, fun _ _ _ => rfl⟩

/-! ## Two notions of case -/

/-- `I` with a dot above, U+0130. -/
def dottedI : Char := Char.ofNat 0x130

/-- The `unicode` tables on ASCII and U+0130, whose lower case is `i` and whose
folding orbit is itself. -/
def latinTables : Unicode where
  is table c :=
    match table with
    | .letter => c.isAlpha || c == dottedI
    | _ => false
  isSpace c := [' ', '\t', '\n', '\r', Char.ofNat 11, Char.ofNat 12].contains c
  toLower c := if c = dottedI then 'i' else c.toLower
  orbit c := c.toUpper
  space_plain := by
    intro c space
    rw [List.contains_iff_mem] at space
    simp only [List.mem_cons, List.not_mem_nil, or_false] at space
    rcases space with rfl | rfl | rfl | rfl | rfl | rfl <;>
      exact ⟨rfl, rfl, by decide, rfl, rfl, rfl⟩
  dot_plain := ⟨rfl, rfl, by decide, rfl, rfl, rfl⟩
  backtick_plain := ⟨rfl, rfl, by decide, rfl, rfl, rfl⟩
  blank_space := by decide
  tab_space := by decide
  dot_space := by decide
  star_space := by decide

/-- Two tables whose names differ only in the dot above an `i`. -/
def dottedTables : Rules where
  tables := ["db.i".toList, "db.".toList ++ [dottedI]]

/-- The second entry is dropped as a repeat of the first, and the table it names
is served. -/
theorem dottedTables_lost : ∃ s, parseRules latinTables dottedTables = .ok s ∧
    TableNamed latinTables dottedTables "db".toList [dottedI] ∧
    s.tableHidden latinTables "db".toList [dottedI] = false := by
  refine ⟨{ tables := [⟨"db".toList, "i".toList, false⟩] }, by decide +kernel, ?_, by decide⟩
  exact ⟨"db.".toList ++ [dottedI], by simp [dottedTables],
    ⟨"db".toList, [dottedI], false⟩, rfl, by decide⟩

/-- Rules with a repeat in another case, a wildcard and a column of every table. -/
def shopRules : Rules where
  tables := ["Shop.Audit".toList, "shop.audit".toList, "hr.*".toList]
  columns := ["shop.*.email".toList]

/-- What is kept of them. -/
def shopSet : HideSet where
  tables := [⟨"Shop".toList, "Audit".toList, false⟩, ⟨"hr".toList, "*".toList, true⟩]
  columns := [⟨"shop".toList, "*".toList, "email".toList, true⟩]

theorem shopRules_unshadowed : Unshadowed latinTables shopRules := by
  have tables : rulesOf (readTable latinTables) shopRules.tables =
      [⟨"Shop".toList, "Audit".toList, false⟩, ⟨"shop".toList, "audit".toList, false⟩,
        ⟨"hr".toList, "*".toList, true⟩] := by decide +kernel
  have columns : rulesOf (readColumn latinTables) shopRules.columns = shopSet.columns := by
    decide +kernel
  constructor
  · rw [tables]
    have repeated : ∀ t ∈ shopSet.tables, FirstBy
        (fun t => latinTables.lower (canonTable latinTables t))
        [⟨"Shop".toList, "Audit".toList, false⟩, ⟨"shop".toList, "audit".toList, false⟩,
          ⟨"hr".toList, "*".toList, true⟩] t := by
      intro t member
      rw [← mem_firstOfEach_iff]
      revert t
      decide +kernel
    intro t member
    simp only [mem_cons, not_mem_nil, or_false] at member
    rcases member with rfl | rfl | rfl
    · exact ⟨_, repeated ⟨"Shop".toList, "Audit".toList, false⟩ (by decide), by decide⟩
    · exact ⟨_, repeated ⟨"Shop".toList, "Audit".toList, false⟩ (by decide), by decide⟩
    · exact ⟨_, repeated ⟨"hr".toList, "*".toList, true⟩ (by decide), by decide⟩
  · rw [columns]
    intro c member table applies
    obtain rfl := mem_singleton.mp member
    exact ⟨[], _, [], rfl, applies, by decide, nofun, by rintro d ⟨front, back, eq, -⟩; simp at eq⟩

theorem shopRules_exact : parseRules latinTables shopRules = .ok shopSet ∧
    (∀ schema table, shopSet.tableHidden latinTables schema table = true ↔
      TableNamed latinTables shopRules schema table) ∧
    ∀ schema table column, shopSet.columnHidden latinTables schema table column = true ↔
      ColumnNamed latinTables shopRules schema table column := by
  have ok : parseRules latinTables shopRules = .ok shopSet := by decide +kernel
  obtain ⟨tables, columns, -⟩ := (parseRules_hides_iff latinTables ok).mpr shopRules_unshadowed
  exact ⟨ok, tables, columns⟩

end Dbtrail
