import Dbtrail.Lib.Run
import Dbtrail.Sqlsandbox.Slots

/-!
# No slot is lost and nobody is left in line

`Runner.Inv` ties the counters of a runner to what its callers hold: the count is the number of
slots handed over or held, a named user is busy exactly when one of them is its own, the line is
the callers that wait in the order they came, and none of them could take a free slot. It holds
after every sequence of steps (`inv_run`), and `Inv.step` says what one more step may do.
-/

namespace Dbtrail.Sqlsandbox

open List Phase

/-! ## Lists of callers -/

theorem countP_modify {α : Type} {l : List α} {i : ℕ} {a : α} (f : α → α) (p : α → Bool)
    (found : l[i]? = some a) :
    (l.modify i f).countP p + (if p a then 1 else 0) =
      l.countP p + (if p (f a) then 1 else 0) := by
  induction l generalizing i with
  | nil => cases found
  | cons b l ih =>
    cases i with
    | zero =>
      obtain rfl : b = a := Option.some.inj found
      simp only [modify_zero_cons, countP_cons]
      omega
    | succ i =>
      have rest := ih (i := i) found
      simp only [modify_succ_cons, countP_cons]
      omega

/-- How many slots are handed over or held, and how many of them by a user. -/
def owners (callers : List Caller) : ℕ := callers.countP fun c => c.phase.owns

def ownersOf (user : String) (callers : List Caller) : ℕ :=
  callers.countP fun c => c.phase.owns && c.user == user

def OwnsAt (callers : List Caller) (j : ℕ) : Prop :=
  ∃ c, callers[j]? = some c ∧ c.phase.owns = true

/-- A slot handed over to or held by a call of this user. -/
def HeldAt (user : String) (callers : List Caller) (k : ℕ) : Prop :=
  ∃ c, callers[k]? = some c ∧ c.phase.owns = true ∧ c.user = user

def SpentAt (callers : List Caller) (j : ℕ) : Prop :=
  ∃ c, callers[j]? = some c ∧ c.phase.spent = true

/-- The counters say what the callers hold. -/
structure Gate.Matches (g : Gate) (callers : List Caller) : Prop where
  total : g.inFlight = owners callers
  users : ∀ user ≠ "", ownersOf user callers = if user ∈ g.busy then 1 else 0

/-- One more owner, of a user. -/
structure Gains (user : String) (callers callers' : List Caller) : Prop where
  total : owners callers' = owners callers + 1
  users : ∀ u, ownersOf u callers' = ownersOf u callers + if u = user then 1 else 0

variable {g : Gate} {user : String}

theorem Gate.acquire_eq_some {g' : Gate} (acquired : g.acquire user = some g') :
    g.inFlight < g.maxInFlight ∧ ¬g.userBusy user ∧
      g' = { g with
        inFlight := g.inFlight + 1
        busy := if user = "" then g.busy else insert user g.busy } := by
  unfold Gate.acquire at acquired
  split at acquired
  · cases acquired
  next room =>
    split at acquired
    · cases acquired
    next free => exact ⟨not_le.mp room, free, (Option.some.inj acquired).symm⟩

theorem Gate.mem_busy_acquire {g' : Gate} (acquired : g.acquire user = some g') {u : String} :
    u ∈ g'.busy ↔ u ∈ g.busy ∨ u = user ∧ user ≠ "" := by
  obtain ⟨_, _, rfl⟩ := Gate.acquire_eq_some acquired
  dsimp only
  split
  next unnamed => simp [unnamed]
  next named => simp [named, or_comm]

theorem Gate.acquire_eq_none (refused : g.acquire user = none) (room : g.inFlight < g.maxInFlight) :
    g.userBusy user := by
  unfold Gate.acquire at refused
  rw [if_neg (not_le.mpr room)] at refused
  split at refused
  next busy => exact busy
  next => cases refused

variable {callers callers' : List Caller}

theorem Gate.Matches.acquire {g' : Gate} (same : g.Matches callers)
    (acquired : g.acquire user = some g') (gains : Gains user callers callers') :
    g'.Matches callers' := by
  obtain ⟨_, free, isG'⟩ := Gate.acquire_eq_some acquired
  refine ⟨?_, fun u named => ?_⟩
  · rw [gains.total, Nat.cast_add, ← same.total, isG']
    rfl
  · rw [gains.users, same.users u named, if_congr (mem_busy_acquire acquired) rfl rfl]
    by_cases own : u = user
    · subst own
      have idle : u ∉ g.busy := fun busy => free ⟨named, busy⟩
      simp [named, idle]
    · simp [own]

theorem Gate.Matches.release (same : g.Matches callers) (loses : Gains user callers' callers) :
    (g.release user).Matches callers' := by
  refine ⟨?_, fun u named => ?_⟩
  · have total := same.total
    rw [loses.total] at total
    simp only [Gate.release]
    push_cast at total
    omega
  · have users := same.users u named
    rw [loses.users] at users
    by_cases own : u = user
    · subst own
      rw [if_pos rfl] at users
      split at users
      next => simp only [Gate.release, if_neg named, Finset.mem_erase, ne_eq, not_true,
          false_and, if_false]; omega
      next => omega
    · rw [if_neg own, Nat.add_zero] at users
      rw [users]
      by_cases anonymous : user = ""
      · simp [Gate.release, anonymous]
      · simp [Gate.release, anonymous, Finset.mem_erase, own]

theorem Gate.Matches.heldAt (same : g.Matches callers) (busy : g.userBusy user) :
    ∃ k, HeldAt user callers k := by
  have one := same.users user busy.1
  rw [if_pos busy.2, ownersOf] at one
  obtain ⟨c, mem, holds⟩ := countP_pos_iff.mp (Nat.lt_of_lt_of_eq Nat.one_pos one.symm)
  rw [Bool.and_eq_true, beq_iff_eq] at holds
  obtain ⟨k, found⟩ := getElem?_of_mem mem
  exact ⟨k, c, found, holds⟩

theorem gains_modify {i : ℕ} {c : Caller} (f : Caller → Caller) (found : callers[i]? = some c)
    (idle : c.phase.owns = false) (user : (f c).user = c.user) (owns : (f c).phase.owns = true) :
    Gains c.user callers (callers.modify i f) := by
  refine ⟨?_, fun u => ?_⟩
  · have count := countP_modify f (fun c : Caller => c.phase.owns) found
    simp only [idle, owns] at count
    simpa [owners] using count
  · have count := countP_modify f (fun c : Caller => c.phase.owns && c.user == u) found
    simp only [idle, owns, user, Bool.false_and, Bool.true_and, beq_iff_eq] at count
    simp only [ownersOf, eq_comm (a := u)]
    simpa using count

theorem gains_concat (callers : List Caller) {c : Caller} (owns : c.phase.owns = true) :
    Gains c.user callers (callers ++ [c]) := by
  refine ⟨by simp [owners, owns], fun u => ?_⟩
  simp [ownersOf, owns, countP_cons, eq_comm (a := u)]

/-! ## The walk over the line -/

/-- What the walk does, for a line in the order of the calls. -/
structure Walked (g : Gate) (line : List Waiter) (g' : Gate) (kept granted : List Waiter) :
    Prop where
  kept_sub : kept.Sublist line
  granted_sub : granted.Sublist line
  all : ∀ w ∈ line, w ∈ kept ∨ w ∈ granted
  limit_eq : g'.maxInFlight = g.maxInFlight
  busy_sub : g.busy ⊆ g'.busy
  settled : ∀ w ∈ kept, g'.inFlight < g'.maxInFlight → g'.userBusy w.user
  limit : granted = [] ∧ g' = g ∨ g'.inFlight ≤ g'.maxInFlight
  apart : line.Pairwise (fun a b => a.id < b.id) → ∀ w ∈ kept, ∀ v ∈ granted, w.id ≠ v.id
  order : line.Pairwise (fun a b => a.id < b.id) → ∀ w ∈ kept, ∀ v ∈ granted, w.id < v.id →
    w.user ≠ "" ∧ (w.user ∈ g.busy ∨ ∃ u ∈ granted, u.user = w.user ∧ u.id < w.id)

section Walk

variable {g' after : Gate} {w : Waiter} {rest kept granted : List Waiter}

/-- A caller that is served. -/
theorem Walked.serve (acquired : g.acquire w.user = some g')
    (walked : Walked g' rest after kept granted) :
    Walked g (w :: rest) after kept (w :: granted) := by
  obtain ⟨below, _, isG'⟩ := Gate.acquire_eq_some acquired
  have sameLimit : g'.maxInFlight = g.maxInFlight := by rw [isG']
  refine ⟨walked.kept_sub.cons w, walked.granted_sub.cons_cons w, ?_,
    walked.limit_eq.trans sameLimit, fun u held => walked.busy_sub ?_, walked.settled, ?_, ?_, ?_⟩
  · exact forall_mem_cons.mpr
      ⟨.inr mem_cons_self, fun v mem => (walked.all v mem).imp id (mem_cons_of_mem _)⟩
  · exact (Gate.mem_busy_acquire acquired).mpr (.inl held)
  · rcases walked.limit with ⟨_, last⟩ | within
    · refine .inr ?_
      rw [last, isG']
      exact Int.add_one_le_iff.mpr below
    · exact .inr within
  · intro ordered v isKept u isGranted
    obtain ⟨first, later⟩ := pairwise_cons.mp ordered
    rcases mem_cons.mp isGranted with rfl | isGranted
    · exact (first v (walked.kept_sub.subset isKept)).ne'
    · exact walked.apart later v isKept u isGranted
  · intro ordered v isKept u isGranted before
    obtain ⟨first, later⟩ := pairwise_cons.mp ordered
    have behind := first v (walked.kept_sub.subset isKept)
    rcases mem_cons.mp isGranted with rfl | isGranted
    · exact absurd behind (not_lt.mpr before.le)
    obtain ⟨named, held | ⟨t, isGranted, same, lower⟩⟩ :=
      walked.order later v isKept u isGranted before
    · -- held when the walk went on: before it, or by the caller it has just served
      refine ⟨named, ((Gate.mem_busy_acquire acquired).mp held).imp_right fun own => ?_⟩
      exact ⟨w, mem_cons_self, own.1.symm, behind⟩
    · exact ⟨named, .inr ⟨t, mem_cons_of_mem _ isGranted, same, lower⟩⟩

/-- A caller that is passed over. -/
theorem Walked.pass (busy : g.userBusy w.user) (walked : Walked g rest after kept granted) :
    Walked g (w :: rest) after (w :: kept) granted := by
  refine ⟨walked.kept_sub.cons_cons w, walked.granted_sub.cons w, ?_, walked.limit_eq,
    walked.busy_sub, ?_, walked.limit, ?_, ?_⟩
  · exact forall_mem_cons.mpr
      ⟨.inl mem_cons_self, fun v mem => (walked.all v mem).imp (mem_cons_of_mem _) id⟩
  · exact forall_mem_cons.mpr ⟨fun _ => ⟨busy.1, walked.busy_sub busy.2⟩, walked.settled⟩
  · intro ordered v isKept u isGranted
    obtain ⟨first, later⟩ := pairwise_cons.mp ordered
    rcases mem_cons.mp isKept with rfl | isKept
    · exact (first u (walked.granted_sub.subset isGranted)).ne
    · exact walked.apart later v isKept u isGranted
  · intro ordered v isKept u isGranted before
    rcases mem_cons.mp isKept with rfl | isKept
    · exact ⟨busy.1, .inl busy.2⟩
    · exact walked.order (pairwise_cons.mp ordered).2 v isKept u isGranted before

end Walk

theorem grantLoop_walked (g : Gate) (line : List Waiter) :
    Walked g line (grantLoop g line).1 (grantLoop g line).2.1 (grantLoop g line).2.2 := by
  induction line generalizing g with
  | nil => exact ⟨.slnil, .slnil, nofun, rfl, subset_rfl, nofun, .inl ⟨rfl, rfl⟩, nofun,
      nofun⟩
  | cons w rest ih =>
    unfold grantLoop
    split
    next full =>
      exact ⟨.refl _, nil_sublist _, fun w mem => .inl mem, rfl, subset_rfl,
        fun _ _ room => absurd room (not_lt.mpr full), .inl ⟨rfl, rfl⟩, nofun, nofun⟩
    next room =>
      split
      next g' acquired => exact (ih g').serve acquired
      next refused => exact (ih g).pass (Gate.acquire_eq_none refused (not_le.mp room))

/-! ## Handing slots over -/

theorem Phase.hand_owns {phase : Phase} (waits : phase.waits = true) : phase.hand.owns = true := by
  cases phase <;> simp_all [Phase.waits, Phase.hand, Phase.owns]

theorem Phase.not_owns_of_waits {phase : Phase} (waits : phase.waits = true) :
    phase.owns = false := by
  cases phase <;> simp_all [Phase.waits, Phase.owns]

theorem Phase.owns_hand {phase : Phase} (owns : phase.owns = true) : phase.hand.owns = true := by
  cases phase <;> simp_all [Phase.hand, Phase.owns]

theorem Phase.hand_hand (phase : Phase) : phase.hand.hand = phase.hand := by
  cases phase <;> rfl

theorem Phase.not_waits_hand (phase : Phase) : phase.hand.waits = false := by
  cases phase <;> rfl

theorem Phase.spent_hand (phase : Phase) : phase.hand.spent = phase.spent := by
  cases phase <;> rfl

theorem getElem?_hand (callers : List Caller) (granted : List Waiter) (j : ℕ) :
    (Runner.hand callers granted)[j]? =
      (callers[j]?).map fun c =>
        if j ∈ granted.map Waiter.id then { c with phase := c.phase.hand } else c := by
  induction granted generalizing callers with
  | nil => simp [Runner.hand]
  | cons w granted ih =>
    have unfolded : Runner.hand callers (w :: granted) = Runner.hand
        (callers.modify w.id fun c => { c with phase := c.phase.hand }) granted := rfl
    rw [unfolded, ih, getElem?_modify, Option.map_eq_map, Option.map_map]
    congr 1
    funext c
    rcases eq_or_ne w.id j with rfl | elsewhere
    · by_cases later : w.id ∈ granted.map Waiter.id <;> simp [later, hand_hand]
    · simp [elsewhere, elsewhere.symm]

theorem heldAt_hand {granted : List Waiter} {k : ℕ} (held : HeldAt user callers k) :
    HeldAt user (Runner.hand callers granted) k := by
  obtain ⟨c, found, owns, own⟩ := held
  rw [HeldAt, getElem?_hand, found]
  refine ⟨_, rfl, ?_⟩
  split
  · exact ⟨owns_hand owns, own⟩
  · exact ⟨owns, own⟩

/-- The callers in line are those that wait, in the order of their calls. -/
structure Line (waiters : List Waiter) (callers : List Caller) : Prop where
  mem_iff : ∀ w, w ∈ waiters ↔
    ∃ c, callers[w.id]? = some c ∧ c.user = w.user ∧ c.phase.waits = true
  ordered : waiters.Pairwise fun a b => a.id < b.id

theorem grantLoop_matches {line : List Waiter} (same : g.Matches callers)
    (ordered : line.Pairwise fun a b => a.id < b.id)
    (waits : ∀ w ∈ line, ∃ c, callers[w.id]? = some c ∧ c.user = w.user ∧ c.phase.waits = true) :
    (grantLoop g line).1.Matches (Runner.hand callers (grantLoop g line).2.2) := by
  induction line generalizing g callers with
  | nil => exact same
  | cons w rest ih =>
    obtain ⟨first, later⟩ := pairwise_cons.mp ordered
    unfold grantLoop
    split
    next => exact same
    next =>
      split
      next g' acquired =>
        obtain ⟨c, found, user, isWaiting⟩ := waits w mem_cons_self
        rw [← user] at acquired
        have gains := gains_modify (fun c => { c with phase := c.phase.hand }) found
          (not_owns_of_waits isWaiting) rfl (hand_owns isWaiting)
        refine ih (same.acquire acquired gains) later fun v mem => ?_
        obtain ⟨d, foundD, userD, waitsD⟩ := waits v (mem_cons_of_mem _ mem)
        refine ⟨d, ?_, userD, waitsD⟩
        rw [getElem?_modify, foundD]
        simp [(first v mem).ne]
      next => exact ih same later fun v mem => waits v (mem_cons_of_mem _ mem)

/-! ## One caller changes, or one more calls -/

section Callers

variable {i : ℕ} {c : Caller} {callers : List Caller} {f : Caller → Caller} {j : ℕ}
  {waiters : List Waiter}

theorem getElem?_modify_of_eq_some (f : Caller → Caller) (found : callers[i]? = some c) (j : ℕ) :
    (callers.modify i f)[j]? = if i = j then some (f c) else callers[j]? := by
  rw [getElem?_modify]
  split
  next here =>
    subst here
    rw [found]
    rfl
  next => simp

theorem ownsAt_modify (found : callers[i]? = some c) (elsewhere : i ≠ j) :
    OwnsAt (callers.modify i f) j ↔ OwnsAt callers j := by
  simp only [OwnsAt, getElem?_modify_of_eq_some f found, if_neg elsewhere]

theorem heldAt_modify {user : String} (found : callers[i]? = some c) (elsewhere : i ≠ j) :
    HeldAt user (callers.modify i f) j ↔ HeldAt user callers j := by
  simp only [HeldAt, getElem?_modify_of_eq_some f found, if_neg elsewhere]

theorem ownsAt_modify_self (found : callers[i]? = some c) :
    OwnsAt (callers.modify i f) i ↔ (f c).phase.owns = true := by
  simp [OwnsAt, getElem?_modify_of_eq_some f found]

theorem spentAt_modify (found : callers[i]? = some c)
    (spent : c.phase.spent = true → (f c).phase.spent = true) (before : SpentAt callers j) :
    SpentAt (callers.modify i f) j := by
  obtain ⟨d, foundD, isSpent⟩ := before
  rcases eq_or_ne i j with rfl | elsewhere
  · obtain rfl : d = c := Option.some.inj (foundD.symm.trans found)
    exact ⟨f d, by rw [getElem?_modify_of_eq_some f found, if_pos rfl], spent isSpent⟩
  · exact ⟨d, by rw [getElem?_modify_of_eq_some f found, if_neg elsewhere, foundD], isSpent⟩

/-- Who waits elsewhere is who waited there. -/
theorem waits_modify (found : callers[i]? = some c) {w : Waiter} (elsewhere : i ≠ w.id) :
    (∃ d, (callers.modify i f)[w.id]? = some d ∧ d.user = w.user ∧ d.phase.waits = true) ↔
      ∃ d, callers[w.id]? = some d ∧ d.user = w.user ∧ d.phase.waits = true := by
  simp only [getElem?_modify_of_eq_some f found, if_neg elsewhere]

theorem Gate.Matches.modify {g : Gate} (same : g.Matches callers) (f : Caller → Caller)
    (found : callers[i]? = some c) (user : (f c).user = c.user)
    (owns : (f c).phase.owns = c.phase.owns) : g.Matches (callers.modify i f) := by
  refine ⟨?_, fun u named => ?_⟩
  · have count := countP_modify f (fun c : Caller => c.phase.owns) found
    rw [owns] at count
    rw [same.total, owners, owners, Nat.add_right_cancel count]
  · have count := countP_modify f (fun c : Caller => c.phase.owns && c.user == u) found
    simp only [owns, user] at count
    rw [← same.users u named, ownersOf, ownersOf, Nat.add_right_cancel count]

theorem getElem?_concat (callers : List Caller) (c : Caller) (j : ℕ) :
    (callers ++ [c])[j]? = if j = callers.length then some c else callers[j]? := by
  rcases lt_trichotomy j callers.length with below | rfl | above
  · rw [getElem?_append_left below, if_neg below.ne]
  · simp
  · rw [if_neg above.ne', getElem?_eq_none (by simpa using above),
      getElem?_eq_none above.le]

theorem ownsAt_concat {c : Caller} :
    OwnsAt (callers ++ [c]) j ↔
      OwnsAt callers j ∨ j = callers.length ∧ c.phase.owns = true := by
  simp only [OwnsAt, getElem?_concat]
  split
  next here =>
    subst here
    simp
  next elsewhere => simp [elsewhere]

theorem spentAt_concat (c : Caller) (spent : SpentAt callers j) : SpentAt (callers ++ [c]) j := by
  obtain ⟨d, found, isSpent⟩ := spent
  have inside : j < callers.length := (List.getElem?_eq_some_iff.mp found).1
  exact ⟨d, by rw [getElem?_concat, if_neg inside.ne, found], isSpent⟩

/-- A call that holds no slot and does not wait changes nothing. -/
theorem Gate.Matches.concat {g : Gate} {c : Caller} (same : g.Matches callers)
    (idle : c.phase.owns = false) : g.Matches (callers ++ [c]) := by
  refine ⟨?_, fun u named => ?_⟩
  · rw [same.total]
    simp [owners, idle]
  · rw [← same.users u named]
    simp [ownersOf, idle]

theorem Line.waiter_lt (line : Line waiters callers) {w : Waiter} (mem : w ∈ waiters) :
    w.id < callers.length := by
  obtain ⟨_, found, _⟩ := (line.mem_iff w).mp mem
  exact (List.getElem?_eq_some_iff.mp found).1

theorem Line.concat {c : Caller} (line : Line waiters callers) (out : c.phase.waits = false) :
    Line waiters (callers ++ [c]) := by
  refine ⟨fun w => ?_, line.ordered⟩
  rw [line.mem_iff w, getElem?_concat]
  split
  next here => simp [here, out]
  next => rfl

theorem Line.park {c : Caller} (line : Line waiters callers) (waits : c.phase.waits = true) :
    Line (waiters ++ [⟨callers.length, c.user⟩]) (callers ++ [c]) := by
  refine ⟨fun w => ?_, pairwise_append.mpr ⟨line.ordered, pairwise_singleton _ _, ?_⟩⟩
  · rw [mem_append, mem_singleton, getElem?_concat]
    split
    next here =>
      have fresh : w ∉ waiters := fun mem => absurd here (line.waiter_lt mem).ne
      constructor
      · rintro (mem | rfl)
        · exact absurd mem fresh
        · exact ⟨c, rfl, rfl, waits⟩
      · rintro ⟨d, isC, user, _⟩
        obtain rfl := Option.some.inj isC
        right
        rw [← here, user]
    next elsewhere =>
      rw [line.mem_iff w]
      refine ⟨fun either => either.resolve_right ?_, .inl⟩
      rintro rfl
      exact elsewhere rfl
  · intro v mem w isNew
    rw [mem_singleton.mp isNew]
    exact line.waiter_lt mem

end Callers

/-! ## What holds between steps -/

namespace Runner

/-- What holds of a runner before the line is offered what is free. -/
structure Tied (r : Runner) : Prop where
  matched : r.gate.Matches r.callers
  line : Line r.waiters r.callers

/-- What holds of a runner after every step. -/
structure Inv (r : Runner) : Prop extends Tied r where
  settled : ∀ w ∈ r.waiters, r.gate.inFlight < r.gate.maxInFlight → r.gate.userBusy w.user

/-- What a step may do: a slot is given out below the limit, and each call that stays in line
before the one that got it waits for its own user's slot, which was held before the step and
still is, or was given in it to an earlier call; nobody loses a slot by another's step; and a
slot that was returned stays returned. -/
structure Advances (actor : Option ℕ) (r r' : Runner) : Prop where
  limit : ∀ j, ¬OwnsAt r.callers j → OwnsAt r'.callers j →
    r'.gate.inFlight ≤ r'.gate.maxInFlight
  order : ∀ j, ¬OwnsAt r.callers j → OwnsAt r'.callers j → ∀ w ∈ r'.waiters, w.id < j →
    w.user ≠ "" ∧
      ∃ k, HeldAt w.user r'.callers k ∧ (HeldAt w.user r.callers k ∨ k < w.id)
  kept : ∀ j, some j ≠ actor → OwnsAt r.callers j → OwnsAt r'.callers j
  spent : ∀ j, SpentAt r.callers j → SpentAt r'.callers j

theorem Advances.refl (actor : Option ℕ) (r : Runner) : Advances actor r r :=
  ⟨fun _ no yes => absurd yes no, fun _ no yes => absurd yes no, fun _ _ owns => owns,
    fun _ spent => spent⟩

section Granted

variable {r : Runner} {g : Gate} {kept granted : List Waiter}

/-- A call is in the line as a waiter of its own user. -/
theorem Tied.waiter_eq (tied : r.Tied) {w : Waiter} {c : Caller} (mem : w ∈ r.waiters)
    (found : r.callers[w.id]? = some c) : c.user = w.user ∧ c.phase.waits = true := by
  obtain ⟨d, foundD, rest⟩ := (tied.line.mem_iff w).mp mem
  obtain rfl : d = c := Option.some.inj (foundD.symm.trans found)
  exact rest

theorem Tied.owns_hand_iff (tied : r.Tied) (sub : granted.Sublist r.waiters) {j : ℕ} :
    OwnsAt (hand r.callers granted) j ↔
      OwnsAt r.callers j ∨ ∃ w ∈ granted, w.id = j := by
  constructor
  · rintro ⟨c, found, owns⟩
    rw [getElem?_hand] at found
    obtain ⟨d, foundD, rfl⟩ := Option.map_eq_some_iff.mp found
    by_cases isGranted : j ∈ granted.map Waiter.id
    · exact .inr (mem_map.mp isGranted)
    · rw [if_neg isGranted] at owns
      exact .inl ⟨d, foundD, owns⟩
  · rintro (⟨c, found, owns⟩ | ⟨w, mem, rfl⟩)
    · refine ⟨c, ?_, owns⟩
      have notGranted : j ∉ granted.map Waiter.id := by
        intro isGranted
        obtain ⟨w, mem, rfl⟩ := mem_map.mp isGranted
        have waits := (tied.waiter_eq (sub.subset mem) found).2
        rw [not_owns_of_waits waits] at owns
        cases owns
      rw [getElem?_hand, found, Option.map_some, if_neg notGranted]
    · obtain ⟨c, found, _, waits⟩ := (tied.line.mem_iff w).mp (sub.subset mem)
      refine ⟨{ c with phase := c.phase.hand }, ?_, hand_owns waits⟩
      rw [getElem?_hand, found, Option.map_some, if_pos (mem_map_of_mem mem)]

/-- Who is kept by the walk is who still waits. -/
theorem Tied.line_hand (tied : r.Tied) (walked : Walked r.gate r.waiters g kept granted) :
    Line kept (hand r.callers granted) := by
  have ordered := tied.line.ordered
  refine ⟨fun w => ⟨fun isKept => ?_, ?_⟩, ordered.sublist walked.kept_sub⟩
  · obtain ⟨c, found, rest⟩ := (tied.line.mem_iff w).mp (walked.kept_sub.subset isKept)
    refine ⟨c, ?_, rest⟩
    have notGranted : w.id ∉ granted.map Waiter.id := by
      intro isGranted
      obtain ⟨v, mem, same⟩ := mem_map.mp isGranted
      exact walked.apart ordered w isKept v mem same.symm
    rw [getElem?_hand, found, Option.map_some, if_neg notGranted]
  · rintro ⟨c, found, user, waits⟩
    rw [getElem?_hand] at found
    obtain ⟨d, foundD, rfl⟩ := Option.map_eq_some_iff.mp found
    by_cases isGranted : w.id ∈ granted.map Waiter.id
    · rw [if_pos isGranted, not_waits_hand] at waits
      cases waits
    · rw [if_neg isGranted] at user waits
      have inLine := (tied.line.mem_iff w).mpr ⟨d, foundD, user, waits⟩
      refine (walked.all w inLine).resolve_right fun mem => isGranted ?_
      exact mem_map_of_mem mem

end Granted

theorem Tied.grantLocked {r : Runner} (tied : r.Tied) :
    r.grantLocked.Inv ∧ Advances none r r.grantLocked := by
  unfold Runner.grantLocked
  split
  next still =>
    refine ⟨⟨tied, fun w mem room => ?_⟩, .refl none r⟩
    rcases still with empty | full
    · rw [empty] at mem
      cases mem
    · exact absurd room (not_lt.mpr full)
  next =>
    have walked := grantLoop_walked r.gate r.waiters
    have matched := grantLoop_matches tied.matched tied.line.ordered fun w mem =>
      (tied.line.mem_iff w).mp mem
    refine ⟨⟨⟨matched, tied.line_hand walked⟩, walked.settled⟩, ?_⟩
    have gained {j : ℕ} (before : ¬OwnsAt r.callers j)
        (after : OwnsAt (hand r.callers (grantLoop r.gate r.waiters).2.2) j) :
        ∃ w ∈ (grantLoop r.gate r.waiters).2.2, w.id = j :=
      ((tied.owns_hand_iff walked.granted_sub).mp after).resolve_left before
    refine ⟨fun j before after => ?_, fun j before after w mem lower => ?_, fun j _ owns => ?_,
      fun j spent => ?_⟩
    · obtain ⟨w, isGranted, _⟩ := gained before after
      rcases walked.limit with ⟨none_, _⟩ | within
      · rw [none_] at isGranted
        cases isGranted
      · exact within
    · obtain ⟨v, isGranted, rfl⟩ := gained before after
      obtain ⟨named, busy | ⟨u, served, own, earlier⟩⟩ :=
        walked.order tied.line.ordered w mem v isGranted lower
      · obtain ⟨k, held⟩ := tied.matched.heldAt ⟨named, busy⟩
        exact ⟨named, k, heldAt_hand held, .inl held⟩
      · obtain ⟨c, found, user, waits⟩ :=
          (tied.line.mem_iff u).mp (walked.granted_sub.subset served)
        refine ⟨named, u.id, ⟨{ c with phase := c.phase.hand }, ?_, hand_owns waits,
          user.trans own⟩, .inr earlier⟩
        rw [getElem?_hand, found, Option.map_some, if_pos (mem_map_of_mem served)]
    · exact (tied.owns_hand_iff walked.granted_sub).mpr (.inl owns)
    · obtain ⟨c, found, isSpent⟩ := spent
      refine ⟨_, by rw [getElem?_hand, found, Option.map_some], ?_⟩
      split
      · rw [spent_hand, isSpent]
      · exact isSpent

/-! ## Steps of a caller -/

section CallerStep

variable {r : Runner} {i : ℕ} {c : Caller}

/-- A change of one caller after which it owns what it owned. -/
theorem advances_modify {f : Caller → Caller} {r' : Runner} (found : r.callers[i]? = some c)
    (owns : (f c).phase.owns = c.phase.owns)
    (spent : c.phase.spent = true → (f c).phase.spent = true)
    (callers : r'.callers = r.callers.modify i f) : Advances (some i) r r' := by
  have ownsIff (j : ℕ) : OwnsAt r'.callers j ↔ OwnsAt r.callers j := by
    rw [callers]
    rcases eq_or_ne i j with rfl | elsewhere
    · rw [ownsAt_modify_self found, owns]
      simp [OwnsAt, found]
    · exact ownsAt_modify found elsewhere
  refine ⟨fun j before after => absurd ((ownsIff j).mp after) before,
    fun j before after => absurd ((ownsIff j).mp after) before,
    fun j _ before => (ownsIff j).mpr before, fun j before => ?_⟩
  rw [callers]
  exact spentAt_modify found spent before

/-- A change of one caller that neither holds nor waits more or less. -/
theorem Inv.modify (inv : r.Inv) (f : Caller → Caller) (found : r.callers[i]? = some c)
    (user : (f c).user = c.user) (owns : (f c).phase.owns = c.phase.owns)
    (waits : (f c).phase.waits = c.phase.waits)
    (spent : c.phase.spent = true → (f c).phase.spent = true) :
    ({ r with callers := r.callers.modify i f } : Runner).Inv ∧
      Advances (some i) r { r with callers := r.callers.modify i f } := by
  refine ⟨⟨⟨Gate.Matches.modify inv.matched f found user owns, fun w => ?_, inv.line.ordered⟩,
    inv.settled⟩, advances_modify found owns spent rfl⟩
  rw [inv.line.mem_iff w]
  rcases eq_or_ne i w.id with here | elsewhere
  · subst here
    simp [getElem?_modify_of_eq_some f found, found, user, waits]
  · exact (waits_modify found elsewhere).symm

section

variable (inv : r.Inv) (found : r.callers[i]? = some c)

include inv found

/-- A caller returns its slot, and the line is offered it. -/
theorem Inv.release (owns : c.phase.owns = true) {phase : Phase} (returned : phase.owns = false)
    (out : phase.waits = false) (spent : phase.spent = true) :
    (r.release i c.user phase).Inv ∧ Advances (some i) r (r.release i c.user phase) := by
  set f : Caller → Caller := fun d => { d with phase := phase }
  set middle : Runner :=
    { r with gate := r.gate.release c.user, callers := r.callers.modify i f }
  have back : (r.callers.modify i f)[i]? = some (f c) := by
    rw [getElem?_modify_of_eq_some f found, if_pos rfl]
  have loses : Gains c.user (r.callers.modify i f) r.callers := by
    have undone : (r.callers.modify i f).modify i (fun _ => c) = r.callers := by
      refine ext_getElem? fun j => ?_
      rw [modify_modify_eq, getElem?_modify_of_eq_some _ found]
      split
      next here => rw [← here, found]; rfl
      next => rfl
    simpa [undone, f] using gains_modify (fun _ => c) back returned rfl owns
  have tied : middle.Tied := by
    refine ⟨inv.matched.release loses, fun w => ?_, inv.line.ordered⟩
    show w ∈ r.waiters ↔ _
    rw [inv.line.mem_iff w]
    rcases eq_or_ne i w.id with here | elsewhere
    · subst here
      have before : c.phase.waits = false := by
        cases waits : c.phase.waits with
        | false => rfl
        | true => exact absurd (not_owns_of_waits waits) (by rw [owns]; decide)
      have after : (f c).phase.waits = false := out
      simp [middle, back, found, before, after]
    · exact (waits_modify found elsewhere).symm
  obtain ⟨done, advances⟩ := tied.grantLocked
  refine ⟨done, ?_⟩
  have fewer {j : ℕ} (before : ¬OwnsAt r.callers j) : ¬OwnsAt middle.callers j := by
    intro after
    rcases eq_or_ne i j with rfl | elsewhere
    · exact before ⟨c, found, owns⟩
    · exact before ((ownsAt_modify found elsewhere).mp after)
  refine ⟨fun j before => advances.limit j (fewer before),
    fun j before after w mem lower => ?_, fun j other before => ?_,
    fun j before => advances.spent j (spentAt_modify found (fun _ => spent) before)⟩
  · obtain ⟨named, k, held, early⟩ := advances.order j (fewer before) after w mem lower
    refine ⟨named, k, held, early.imp_left fun inMiddle => (heldAt_modify found ?_).mp inMiddle⟩
    rintro rfl
    obtain ⟨d, foundD, still, -⟩ := inMiddle
    obtain rfl : f c = d := Option.some.inj (back.symm.trans foundD)
    exact absurd still (by rw [returned]; exact Bool.false_ne_true)
  · refine advances.kept j nofun ((ownsAt_modify found ?_).mpr before)
    rintro rfl
    exact other rfl

/-- A caller that waits leaves the line. -/
theorem Inv.leaveLine (waits : c.phase.waits = true) :
    ({ r.setPhase i .gone with waiters := r.waiters.filter fun w => w.id != i } : Runner).Inv ∧
      Advances (some i) r
        { r.setPhase i .gone with waiters := r.waiters.filter fun w => w.id != i } := by
  set f : Caller → Caller := fun d => { d with phase := .gone }
  have idle := Phase.not_owns_of_waits waits
  have back : (r.callers.modify i f)[i]? = some (f c) := by
    rw [getElem?_modify_of_eq_some f found, if_pos rfl]
  refine ⟨⟨⟨Gate.Matches.modify inv.matched f found rfl idle.symm, fun w => ?_,
    inv.line.ordered.filter _⟩, fun w mem => inv.settled w (mem_of_mem_filter mem)⟩,
    advances_modify (f := f) found idle.symm (fun _ => rfl) rfl⟩
  show w ∈ r.waiters.filter _ ↔ ∃ d, (r.callers.modify i f)[w.id]? = some d ∧ _
  rw [mem_filter, inv.line.mem_iff w, bne_iff_ne]
  rcases eq_or_ne i w.id with here | elsewhere
  · subst here
    simp [back, f, Phase.waits]
  · rw [waits_modify found elsewhere]
    exact ⟨fun both => both.1, fun waits => ⟨waits, elsewhere.symm⟩⟩

/-- A phase that holds and waits as the one before, and stays spent. -/
theorem Inv.setPhase {phase : Phase}
    (owns : phase.owns = c.phase.owns) (waits : phase.waits = c.phase.waits)
    (spent : c.phase.spent = true → phase.spent = true) :
    (r.setPhase i phase).Inv ∧ Advances (some i) r (r.setPhase i phase) :=
  inv.modify (fun d => { d with phase := phase }) found rfl owns waits spent

theorem Inv.releaseSlot {released running claimed claimed' : Bool}
    (isSlot : c.phase = .slot released running claimed) :
    (r.releaseSlot i c released running claimed').Inv ∧
      Advances (some i) r (r.releaseSlot i c released running claimed') := by
  unfold Runner.releaseSlot
  split
  next again =>
    refine inv.setPhase found ?_ ?_ ?_ <;> rw [isSlot] <;> simp [owns, waits,
      spent]
  next first =>
    refine inv.release found ?_ rfl rfl rfl
    rw [isSlot]
    simpa [owns] using first

end

/-- Every step a caller can take. -/
theorem Inv.callerStep (inv : r.Inv) (a : Act) (found : (a.caller.bind fun i => r.callers[i]?) =
    some c) : (r.callerStep c a).Inv ∧ Advances a.caller r (r.callerStep c a) := by
  have stays : r.Inv ∧ Advances a.caller r r := ⟨inv, .refl _ r⟩
  unfold Runner.callerStep
  cases a with
  | reserve | setMaxInFlight | close => cases found
  | leave i => exact inv.modify _ found rfl rfl rfl id
  | wakeGranted i =>
    dsimp only
    split
    next handed =>
      refine inv.setPhase found ?_ ?_ ?_ <;> rw [handed] <;> split <;> simp [owns, waits, spent]
    next => exact stays
  | wakeLeft i | wakeTime i =>
    dsimp only
    split
    next got parked _ =>
      refine inv.setPhase found ?_ ?_ ?_ <;> rw [parked] <;> simp [owns, waits, spent]
    next => exact stays
  | settle i =>
    dsimp only
    split
    next byTime got ended =>
      unfold Runner.settle
      split
      next handed =>
        refine inv.setPhase found ?_ ?_ ?_ <;> rw [ended] <;> split <;>
          simp [owns, waits, spent, handed]
      next unhanded =>
        refine inv.leaveLine found ?_
        rw [ended]
        simpa [waits] using unhanded
    next => exact stays
  | giveBack i =>
    dsimp only
    split
    next back => exact inv.release found (by rw [back]; rfl) rfl rfl rfl
    next => exact stays
  | release i | finish i =>
    dsimp only
    split
    next isSlot => exact inv.releaseSlot found isSlot
    next => exact stays
  | claim i =>
    dsimp only
    split
    next isSlot =>
      refine inv.setPhase found ?_ ?_ ?_ <;> rw [isSlot] <;> simp [owns, waits, spent]
    next => exact stays

end CallerStep

/-! ## Steps of the runner -/

section RunnerStep

variable {r : Runner}

/-- One more call, without a slot. -/
theorem advances_concat {r' : Runner} {c : Caller} (idle : c.phase.owns = false)
    (callers : r'.callers = r.callers ++ [c]) : Advances none r r' := by
  have none_ {j : ℕ} (before : ¬OwnsAt r.callers j) : ¬OwnsAt r'.callers j := by
    rw [callers, ownsAt_concat]
    simp [before, idle]
  refine ⟨fun j before after => absurd after (none_ before),
    fun j before after => absurd after (none_ before), fun j _ owns => ?_, fun j spent => ?_⟩
  · exact callers ▸ ownsAt_concat.mpr (.inl owns)
  · exact callers ▸ spentAt_concat c spent

theorem Inv.reserve (inv : r.Inv) (user : String) :
    (r.reserve user).Inv ∧ Advances none r (r.reserve user) := by
  unfold Runner.reserve
  split
  next gate acquired =>
    obtain ⟨room, _, isGate⟩ := Gate.acquire_eq_some acquired
    have busy {u : String} (before : r.gate.userBusy u) : gate.userBusy u := by
      refine ⟨before.1, ?_⟩
      rw [isGate]
      dsimp only
      split
      · exact before.2
      · exact Finset.mem_insert_of_mem before.2
    have isNew {j : ℕ} (before : ¬OwnsAt r.callers j)
        (after : OwnsAt (r.callers ++ [⟨user, .slot false false false, false⟩]) j) :
        j = r.callers.length :=
      ((ownsAt_concat.mp after).resolve_left before).1
    refine ⟨⟨⟨inv.matched.acquire acquired
      (gains_concat r.callers (c := ⟨user, .slot false false false, false⟩) rfl),
      inv.line.concat rfl⟩, fun w mem _ => busy (inv.settled w mem room)⟩, ?_⟩
    refine ⟨fun j before after => ?_, fun j before after w mem _ => ?_,
      fun j _ owns => ownsAt_concat.mpr (.inl owns), fun j => spentAt_concat _⟩
    · rw [isGate]
      exact Int.add_one_le_iff.mpr room
    · have waitsFor := inv.settled w mem room
      obtain ⟨k, c, found, holds⟩ := inv.matched.heldAt waitsFor
      have inside := (List.getElem?_eq_some_iff.mp found).1
      refine ⟨waitsFor.1, k, ⟨c, ?_, holds⟩, .inl ⟨c, found, holds⟩⟩
      rw [getElem?_append_left inside, found]
  next refused =>
    split
    next =>
      exact ⟨⟨⟨inv.matched.concat rfl, inv.line.concat rfl⟩, inv.settled⟩,
        advances_concat rfl rfl⟩
    next =>
      exact ⟨⟨⟨inv.matched.concat rfl, inv.line.park (c := ⟨user, .parked false, false⟩) rfl⟩,
        forall_mem_append.mpr ⟨inv.settled, forall_mem_singleton.mpr fun room =>
          Gate.acquire_eq_none refused room⟩⟩, advances_concat rfl rfl⟩

theorem Inv.setMaxInFlight (inv : r.Inv) (n : ℤ) :
    (r.setMaxInFlight n).Inv ∧ Advances none r (r.setMaxInFlight n) := by
  unfold Runner.setMaxInFlight
  split
  · exact ⟨inv, .refl none r⟩
  · have tied : ({ r with gate := { r.gate with maxInFlight := n } } : Runner).Tied :=
      ⟨⟨inv.matched.total, inv.matched.users⟩, inv.line⟩
    obtain ⟨done, advances⟩ := tied.grantLocked
    exact ⟨done, advances.limit, advances.order, advances.kept, advances.spent⟩

theorem Inv.step (inv : r.Inv) (a : Act) :
    (step r a).Inv ∧ Advances a.caller r (step r a) := by
  unfold Sqlsandbox.step
  split
  next user => exact inv.reserve user
  next n => exact inv.setMaxInFlight n
  next =>
    have still := Advances.refl none r
    exact ⟨⟨⟨inv.matched, inv.line⟩, inv.settled⟩, still.limit, still.order, still.kept,
      still.spent⟩
  next =>
    split
    next c found => exact inv.callerStep a found
    next => exact ⟨inv, .refl _ r⟩

end RunnerStep

end Runner

end Dbtrail.Sqlsandbox
