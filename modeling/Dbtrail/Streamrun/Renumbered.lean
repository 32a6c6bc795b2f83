import Mathlib

/-!
# A source whose GTID numbering started over

A resume trusts the saved GTID set to name what capture has read, which holds only while the
source's GTID history is the one the set was taken from. The two classifiers compare the set with
what the source has now. Only the source's own transactions can prove that it went backwards, since
nobody else creates them: a replica that lags misses those of other servers only.

A GTID set is the set of its transactions (the interval sets are the library's), and a MariaDB set
has one GTID for each domain.
-/

namespace Dbtrail.GTIDCheck

/-! ## Binary log files -/

structure BinlogFileEntry : Type where
  name : List Char
  size : ℕ
  deriving DecidableEq, Repr

def splitBinlogName (name : List Char) : List Char × List Char :=
  match name.reverse.span (· != '.') with
  | (suffix, _ :: base) => (base.reverse, suffix.reverse)
  | (_, []) => (name, [])

def allDigits (s : List Char) : Bool := !s.isEmpty && s.all Char.isDigit

def continuesNumbering (savedFile : List Char) (savedPos : ℕ) (file : List Char) (pos : ℕ) :
    Bool :=
  let (savedBase, savedSuffix) := splitBinlogName savedFile
  let (base, suffix) := splitBinlogName file
  if base ≠ savedBase then false
  else if suffix.length ≠ savedSuffix.length then decide (savedSuffix.length < suffix.length)
  else if suffix ≠ savedSuffix then decide (savedSuffix < suffix)
  else decide (savedPos ≤ pos)

def checkpointPastBinlogEnd (file : List Char) (pos : ℕ) (logs : List BinlogFileEntry) : Bool :=
  match logs.getLast? with
  | none => false
  | some newest =>
      let (base, num) := splitBinlogName file
      let (nbase, nnum) := splitBinlogName newest.name
      if file = [] then false
      else if base ≠ nbase ∨ !allDigits num ∨ !allDigits nnum then false
      else !continuesNumbering file pos newest.name newest.size

def earliestOrUnknown (logs : List BinlogFileEntry) : List Char :=
  (logs.head?.map BinlogFileEntry.name).getD []

/-! ## MySQL -/

structure Txn : Type where
  sid : ℕ
  tag : ℕ
  num : ℕ
  deriving DecidableEq, Repr

/-- `mysqlSetHasUUID`. -/
def hasUUID (s : Finset Txn) (sid : ℕ) : Prop := ∃ t ∈ s, t.sid = sid

instance (s : Finset Txn) (sid : ℕ) : Decidable (hasUUID s sid) :=
  inferInstanceAs (Decidable (∃ t ∈ s, t.sid = sid))

inductive Why : Type where
  | backwards
  | notShared
  | startedOver
  deriving DecidableEq, Repr

/-- A verdict. `resumeSet` and `lostPurged` are MySQL's. -/
structure GTIDRenumbering : Type where
  why : Why
  resumeSet : Finset Txn := ∅
  earliestFile : List Char
  lostPurged : Bool := false
  deriving DecidableEq

/-- The saved set's part that the source's own numbering gives. -/
def ownPart (own : ℕ) (saved : Finset Txn) : Finset Txn := saved.filter (·.sid = own)

def mysqlShared (saved executed : Finset Txn) : Prop := ∃ t ∈ saved, hasUUID executed t.sid

def mysqlForeignPresent (own : ℕ) (saved executed : Finset Txn) : Prop :=
  ∃ t ∈ saved, t.sid ≠ own ∧ hasUUID executed t.sid

/-- The third verdict's condition, of either flavor. -/
def startedOver (ownInSaved foreignPresent : Prop) (file : List Char) (pos : ℕ) (sameServer : Bool)
    (logs : List BinlogFileEntry) : Prop :=
  sameServer = true ∧ ownInSaved ∧ ¬foreignPresent ∧ checkpointPastBinlogEnd file pos logs = true

instance (saved executed : Finset Txn) : Decidable (mysqlShared saved executed) :=
  inferInstanceAs (Decidable (∃ t ∈ saved, hasUUID executed t.sid))

instance (own : ℕ) (saved executed : Finset Txn) :
    Decidable (mysqlForeignPresent own saved executed) :=
  inferInstanceAs (Decidable (∃ t ∈ saved, t.sid ≠ own ∧ hasUUID executed t.sid))

instance (p q : Prop) [Decidable p] [Decidable q] (file : List Char) (pos : ℕ) (same : Bool)
    (logs : List BinlogFileEntry) : Decidable (startedOver p q file pos same logs) :=
  inferInstanceAs (Decidable (_ ∧ _))

def resumeSet (own : ℕ) (saved executed purged : Finset Txn) : Finset Txn :=
  (saved.filter fun t => t.sid ≠ own ∧ hasUUID executed t.sid) ∪ purged

def classifyMySQLRenumbering (saved executed purged : Finset Txn) (own : ℕ) (file : List Char)
    (pos : ℕ) (sameServer : Bool) (logs : List BinlogFileEntry) : Option GTIDRenumbering :=
  let verdict (why : Why) : Option GTIDRenumbering :=
    some
      { why
        resumeSet := resumeSet own saved executed purged
        earliestFile := earliestOrUnknown logs
        lostPurged :=
          !decide (purged ⊆ saved.filter fun t => t.sid ≠ own ∧ hasUUID executed t.sid) }
  if saved = ∅ then none
  else if ownPart own saved ≠ ∅ ∧ ¬ownPart own saved ⊆ executed then verdict .backwards
  else if ¬mysqlShared saved executed then verdict .notShared
  else if startedOver (ownPart own saved ≠ ∅) (mysqlForeignPresent own saved executed) file pos
      sameServer logs then
    verdict .startedOver
  else none

/-- Where capture restarts after a verdict. -/
def GTIDRenumbering.restart (r : GTIDRenumbering) : List Char × ℕ :=
  if r.earliestFile ≠ [] then (r.earliestFile, 4) else ([], 0)

/-! ## MariaDB -/

structure MariaGTID : Type where
  domain : ℕ
  server : ℕ
  seq : ℕ
  deriving DecidableEq, Repr

/-- The source's last sequence number in a domain, by the entries of its binlog state. -/
def lastSeq (state : List MariaGTID) (domain server : ℕ) : Option ℕ :=
  ((state.filter fun g => g.domain = domain ∧ g.server = server ∧ 0 < g.seq).map
    MariaGTID.seq).max?

def mariaPresent (state : List MariaGTID) (domain : ℕ) : Bool := state.any (·.domain == domain)

def classifyMariaDBRenumbering (saved state : List MariaGTID) (serverID : ℕ) (file : List Char)
    (pos : ℕ) (sameServer : Bool) (logs : List BinlogFileEntry) : Option GTIDRenumbering :=
  let verdict (why : Why) : Option GTIDRenumbering :=
    some { why, earliestFile := earliestOrUnknown logs }
  if saved = [] then none
  else if ∃ g ∈ saved, g.server = serverID ∧
      (lastSeq state g.domain serverID).all (· < g.seq) = true then
    verdict .backwards
  else if ¬∃ g ∈ saved, mariaPresent state g.domain = true then verdict .notShared
  else if startedOver (∃ g ∈ saved, g.server = serverID)
      (∃ g ∈ saved, g.server ≠ serverID ∧ mariaPresent state g.domain = true) file pos sameServer
      logs then
    verdict .startedOver
  else none

/-! ## No false alarm -/

variable {executed purged saved : Finset Txn} {own : ℕ}

/-- A source that kept its own transactions and knows a server of the saved set is reported only
where its binary log ends before a checkpoint that was read from it. -/
theorem classifyMySQL_none_iff {created : Finset Txn} (named : saved ⊆ created)
    (kept : ∀ t ∈ created, t.sid = own → t ∈ executed) (shared : mysqlShared saved executed)
    (file : List Char) (pos : ℕ) (sameServer : Bool) (logs : List BinlogFileEntry) :
    classifyMySQLRenumbering saved executed purged own file pos sameServer logs = none ↔
      ¬startedOver (ownPart own saved ≠ ∅) (mysqlForeignPresent own saved executed) file pos
        sameServer logs := by
  have some_ : saved ≠ ∅ := by
    rintro rfl
    obtain ⟨t, member, -⟩ := shared
    simp at member
  have own_kept : ownPart own saved ⊆ executed := fun t member =>
    kept t (named (Finset.mem_filter.mp member).1) (Finset.mem_filter.mp member).2
  simp only [classifyMySQLRenumbering]
  rw [if_neg some_, if_neg fun wrong => wrong.2 own_kept, if_neg (not_not.mpr shared)]
  split
  next over_ => exact iff_of_false (by simp) (not_not.mpr over_)
  next fine => exact iff_of_true rfl fine

theorem classifyMariaDB_none_iff {created : Finset MariaGTID} {saved state : List MariaGTID}
    {serverID : ℕ} (named : ∀ g ∈ saved, g ∈ created)
    (kept : ∀ g ∈ created, g.server = serverID →
      ∃ seq ∈ lastSeq state g.domain serverID, g.seq ≤ seq)
    (shared : ∃ g ∈ saved, mariaPresent state g.domain = true) (file : List Char) (pos : ℕ)
    (sameServer : Bool) (logs : List BinlogFileEntry) :
    classifyMariaDBRenumbering saved state serverID file pos sameServer logs = none ↔
      ¬startedOver (∃ g ∈ saved, g.server = serverID)
        (∃ g ∈ saved, g.server ≠ serverID ∧ mariaPresent state g.domain = true) file pos sameServer
        logs := by
  have some_ : saved ≠ [] := by
    rintro rfl
    obtain ⟨g, member, -⟩ := shared
    cases member
  have reached : ¬∃ g ∈ saved, g.server = serverID ∧
      (lastSeq state g.domain serverID).all (· < g.seq) = true := by
    rintro ⟨g, member, mine, behind⟩
    obtain ⟨seq, last, enough⟩ := kept g (named g member) mine
    rw [Option.mem_def.mp last, Option.all_some, decide_eq_true_eq] at behind
    omega
  simp only [classifyMariaDBRenumbering]
  rw [if_neg some_, if_neg reached, if_neg (not_not.mpr shared)]
  split
  next over_ => exact iff_of_false (by simp) (not_not.mpr over_)
  next fine => exact iff_of_true rfl fine

/-! ## After a verdict -/

variable {file : List Char} {logs : List BinlogFileEntry}

theorem resume_of_verdict {pos : ℕ} {sameServer : Bool} {r : GTIDRenumbering}
    (verdict : classifyMySQLRenumbering saved executed purged own file pos sameServer logs =
      some r) :
    r.resumeSet = resumeSet own saved executed purged ∧
      r.earliestFile = earliestOrUnknown logs := by
  simp only [classifyMySQLRenumbering] at verdict
  split_ifs at verdict
  all_goals exact Option.some.inj verdict ▸ ⟨rfl, rfl⟩

/-- The source's binary log has grown: what it had listed, a header at least in each file, is not
past its end now. -/
def Grown (logs later : List BinlogFileEntry) : Prop :=
  ∀ f ∈ logs, 4 ≤ f.size ∧
    ∀ newest ∈ later.getLast?, continuesNumbering f.name f.size newest.name newest.size = true

theorem continuesNumbering_mono {savedFile : List Char} {savedPos pos lower : ℕ}
    (continues : continuesNumbering savedFile savedPos file pos = true) (le : lower ≤ savedPos) :
    continuesNumbering savedFile lower file pos = true := by
  simp only [continuesNumbering] at continues ⊢
  split_ifs at continues ⊢ with base length suffix
  · exact continues
  · exact continues
  · rw [decide_eq_true_eq] at continues ⊢
    omega

theorem restart_not_past {later : List BinlogFileEntry} (grown : Grown logs later)
    {r : GTIDRenumbering} (earliest : r.earliestFile = earliestOrUnknown logs) :
    checkpointPastBinlogEnd r.restart.1 r.restart.2 later = false := by
  unfold checkpointPastBinlogEnd GTIDRenumbering.restart
  rw [earliest]
  split
  next => rfl
  next newest last =>
    cases logs with
    | nil => rfl
    | cons first logs =>
      obtain ⟨header, reached⟩ := grown first (List.mem_cons_self ..)
      have continues := continuesNumbering_mono (reached newest last) header
      simp only [earliestOrUnknown, List.head?_cons, Option.map_some, Option.getD_some]
      by_cases unnamed : first.name = []
      · simp [unnamed]
      · simp [unnamed, continues]

/-- What the source has and the resume set does not name is sent. -/
theorem not_mem_resumeSet {t : Txn} (survives : t ∉ purged) (unnamed : t.sid = own ∨ t ∉ saved) :
    t ∉ resumeSet own saved executed purged := by
  rw [resumeSet, Finset.mem_union, Finset.mem_filter]
  rintro (⟨member, other, -⟩ | gone)
  · exact unnamed.elim other (· member)
  · exact survives gone

theorem classify_resumeSet {executed' purged' : Finset Txn} (purgedRan : purged ⊆ executed)
    (later : executed ⊆ executed') {pos : ℕ} (sameServer : Bool)
    (reached : checkpointPastBinlogEnd file pos logs = false) :
    classifyMySQLRenumbering (resumeSet own saved executed purged) executed' purged' own file pos
      sameServer logs = none := by
  by_cases empty : resumeSet own saved executed purged = ∅
  · simp only [classifyMySQLRenumbering]
    rw [if_pos empty]
  · obtain ⟨t, member⟩ := Finset.nonempty_iff_ne_empty.mpr empty
    have known {u : Txn} (inside : u ∈ resumeSet own saved executed purged) :
        hasUUID executed' u.sid := by
      rw [resumeSet, Finset.mem_union, Finset.mem_filter] at inside
      rcases inside with ⟨-, -, v, ran, same⟩ | gone
      · exact ⟨v, later ran, same⟩
      · exact ⟨u, later (purgedRan gone), rfl⟩
    have ownRan : ∀ u ∈ resumeSet own saved executed purged, u.sid = own → u ∈ executed' := by
      intro u inside mine
      rw [resumeSet, Finset.mem_union, Finset.mem_filter] at inside
      rcases inside with ⟨-, other, -⟩ | gone
      · exact absurd mine other
      · exact later (purgedRan gone)
    rw [classifyMySQL_none_iff (Finset.Subset.refl _) ownRan ⟨t, member, known member⟩]
    rintro ⟨-, -, -, past⟩
    exact nomatch reached.symm.trans past

/-- The verdicts. A source that kept every transaction it created and knows a server (a domain) of
the saved set is reported only if it is the server the checkpoint was read from, its own
transactions are in the saved set, no other server of the set is known to it and its binary log
ends before the checkpoint. After a MySQL verdict the source owes everything of its surviving
binary log but what the saved set names under another server, and the set to resume from, at the
restarted position, is never reported again while the source's log only grows. -/
theorem renumbering_settles :
    (∀ (created saved executed purged : Finset Txn) (own : ℕ), saved ⊆ created →
      (∀ t ∈ created, t.sid = own → t ∈ executed) → mysqlShared saved executed →
      ∀ (file : List Char) (pos : ℕ) (sameServer : Bool) (logs : List BinlogFileEntry),
        classifyMySQLRenumbering saved executed purged own file pos sameServer logs = none ↔
          ¬startedOver (ownPart own saved ≠ ∅) (mysqlForeignPresent own saved executed) file pos
            sameServer logs) ∧
    (∀ (created : Finset MariaGTID) (saved state : List MariaGTID) (serverID : ℕ),
      (∀ g ∈ saved, g ∈ created) →
      (∀ g ∈ created, g.server = serverID →
        ∃ seq ∈ lastSeq state g.domain serverID, g.seq ≤ seq) →
      (∃ g ∈ saved, mariaPresent state g.domain = true) →
      ∀ (file : List Char) (pos : ℕ) (sameServer : Bool) (logs : List BinlogFileEntry),
        classifyMariaDBRenumbering saved state serverID file pos sameServer logs = none ↔
          ¬startedOver (∃ g ∈ saved, g.server = serverID)
            (∃ g ∈ saved, g.server ≠ serverID ∧ mariaPresent state g.domain = true) file pos
            sameServer logs) ∧
    ∀ (saved executed purged : Finset Txn) (own : ℕ) (file : List Char) (pos : ℕ)
      (sameServer : Bool) (logs : List BinlogFileEntry) (r : GTIDRenumbering),
      purged ⊆ executed →
      classifyMySQLRenumbering saved executed purged own file pos sameServer logs = some r →
      (∀ t ∈ executed, t ∉ purged → (t.sid = own ∨ t ∉ saved) → t ∉ r.resumeSet) ∧
      ∀ (executed' purged' : Finset Txn) (same' : Bool) (later : List BinlogFileEntry),
        executed ⊆ executed' → Grown logs later →
        classifyMySQLRenumbering r.resumeSet executed' purged' own r.restart.1 r.restart.2 same'
          later = none := by
  refine ⟨fun _ _ _ _ _ named kept shared => classifyMySQL_none_iff named kept shared,
    fun _ _ _ _ named kept shared => classifyMariaDB_none_iff named kept shared, ?_⟩
  intro saved executed purged own file pos sameServer logs r purgedRan verdict
  obtain ⟨resume, earliest⟩ := resume_of_verdict verdict
  rw [resume]
  refine ⟨fun t _ survives unnamed => not_mem_resumeSet survives unnamed, ?_⟩
  intro executed' purged' same' later grows grown
  exact classify_resumeSet purgedRan grows same' (restart_not_past grown earliest)

/-- A replica that lags behind server 2 and a MariaDB source that went on are not reported. Then
server 1 was reset: of the ten transactions capture had read it has two, one of them purged. It
owes the other, and the set to resume from is not reported again. -/
theorem reset_settles :
    classifyMySQLRenumbering {⟨1, 0, 1⟩, ⟨2, 0, 1⟩} {⟨1, 0, 1⟩} ∅ 1 "b.01".toList 100 true
      [⟨"b.01".toList, 157⟩] = none ∧
    classifyMariaDBRenumbering [⟨0, 1, 5⟩] [⟨0, 1, 7⟩] 1 "b.01".toList 100 true
      [⟨"b.01".toList, 157⟩] = none ∧
    ∃ r, classifyMySQLRenumbering ((Finset.range 10).image (Txn.mk 1 0)) {⟨1, 0, 0⟩, ⟨1, 0, 1⟩}
        {⟨1, 0, 0⟩} 1 "b.07".toList 500 true [⟨"b.01".toList, 157⟩] = some r ∧
      ⟨1, 0, 1⟩ ∉ r.resumeSet ∧
      classifyMySQLRenumbering r.resumeSet {⟨1, 0, 0⟩, ⟨1, 0, 1⟩} {⟨1, 0, 0⟩} 1 r.restart.1
        r.restart.2 true [⟨"b.01".toList, 157⟩] = none := by
  refine ⟨(renumbering_settles.1 _ _ _ _ _ (Finset.Subset.refl _) (by decide) (by decide)
      _ _ _ _).mpr (by decide),
    (renumbering_settles.2.1 {⟨0, 1, 5⟩} _ _ _ (by decide) (by decide) (by decide)
      _ _ _ _).mpr (by decide), ?_⟩
  obtain ⟨r, verdict⟩ : ∃ r, classifyMySQLRenumbering ((Finset.range 10).image (Txn.mk 1 0))
      {⟨1, 0, 0⟩, ⟨1, 0, 1⟩} {⟨1, 0, 0⟩} 1 "b.07".toList 500 true [⟨"b.01".toList, 157⟩] = some r :=
    Option.isSome_iff_exists.mp (by decide)
  obtain ⟨owed, again⟩ := renumbering_settles.2.2 _ _ _ _ _ _ _ _ r (by decide) verdict
  refine ⟨r, verdict, owed _ (by decide) (by decide) (Or.inl rfl), ?_⟩
  refine again _ _ _ _ (Finset.Subset.refl _) fun f member => ?_
  obtain rfl := List.mem_singleton.mp member
  exact ⟨by decide, fun newest last => by obtain rfl := Option.some.inj last; decide⟩

/-- The same server after a reset whose `gtid_purged` was set to what it had: it has all its own
transactions, and its binary log started over. -/
theorem purgedReset_reported :
    classifyMySQLRenumbering {⟨1, 0, 1⟩} {⟨1, 0, 1⟩} {⟨1, 0, 1⟩} 1 "b.07".toList 500 true
      [⟨"b.01".toList, 157⟩] ≠ none := by
  decide

end Dbtrail.GTIDCheck
