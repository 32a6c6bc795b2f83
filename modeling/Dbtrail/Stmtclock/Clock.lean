import Dbtrail.Lib.Run

/-!
# Statement clocks

A clock is a context that ends once it has run for its time, and that a hold stops while its
statement waits in a line. The clocks of one connection are a group and are held together. Every
change of a clock is made under the group's lock, so a run is a schedule of locked steps: a step
here is what one of the source's functions does between taking the lock and giving it back.

A timer's callback takes the lock twice, once to see whether it is still the current one
(`Act.fire`) and once to end the clock (`Act.expired`), and anything may come between. A callback
may come late, also after its timer was stopped, and a parent's end may reach a clock at any time
after it. `ran` is no field of the source: it is how long the clock has run while nothing held it.
-/

namespace Dbtrail.Stmtclock

inductive CtxErr : Type where
  | deadlineExceeded
  | canceled
  | other (text : String)
  deriving DecidableEq, Repr

structure Clock : Type where
  duration : ℤ
  left : ℤ
  err : Option CtxErr := none
  deadline : ℤ := 0
  timer : Bool := false
  run : ℕ := 0
  /-- Whether the clock is one of the group's. -/
  inGroup : Bool := true
  parentErr : Option CtxErr := none
  /-- The timers that were set and have not fired, each with its run and when it is due. -/
  armed : List (ℕ × ℤ) := []
  /-- The callbacks that found themselves current and are about to end the clock. -/
  expiring : ℕ := 0
  /-- How often `done` was closed. -/
  closed : ℕ := 0
  ran : ℤ := 0
  deriving DecidableEq, Repr

/-! ## One clock -/

namespace Clock

variable (c : Clock)

def startLocked (now : ℤ) : Clock :=
  if c.err.isSome || c.timer then c
  else
    { c with
      run := c.run + 1
      deadline := now + c.left
      timer := true
      armed := c.armed ++ [(c.run + 1, now + c.left)] }

def stopLocked (now : ℤ) : Clock :=
  if !c.timer then c
  else { c with timer := false, run := c.run + 1, left := max (c.deadline - now) 0 }

/-- `end`. -/
def endWith (err : CtxErr) : Clock :=
  if c.err.isSome then c
  else { c with err := some err, timer := false, inGroup := false, closed := c.closed + 1 }

/-- The first half of `expire`, of a timer that is due. -/
def fire (now : ℤ) (run : ℕ) : Clock :=
  if c.armed.any fun t => t.1 == run && decide (t.2 ≤ now) then
    { c with
      armed := c.armed.filter fun t => t.1 != run
      expiring := if c.run = run ∧ c.timer = true then c.expiring + 1 else c.expiring }
  else c

/-- The second half of `expire`, of a timer that was the current one. -/
def expired : Clock :=
  if 0 < c.expiring then { c with expiring := c.expiring - 1 }.endWith .deadlineExceeded else c

/-- The end of the parent reaches the clock: in `WithTimeout`, in the parent's callback or in
`Err`. -/
def parentEnded : Clock :=
  match c.parentErr with
  | some err => c.endWith err
  | none => c

end Clock

/-! ## The group -/

inductive Act : Type where
  | pass (dt : ℕ)
  | withTimeout (d : ℤ)
  | hold
  | release (k : ℕ)
  | fire (i run : ℕ)
  | expired (i : ℕ)
  | parentEnds (i : ℕ) (err : CtxErr)
  | parentEnded (i : ℕ)
  | cancel (i : ℕ)
  deriving DecidableEq, Repr

/-- `released` has an entry for each call of `Hold`: whether its release was called. -/
structure Group : Type where
  now : ℤ := 0
  holds : ℤ := 0
  released : List Bool := []
  clocks : List Clock := []
  deriving DecidableEq, Repr

namespace Group

variable (g : Group)

/-- What a step does to the `i`-th clock. -/
def clockStep (a : Act) (i : ℕ) (c : Clock) : Clock :=
  match a with
  | .pass dt => if g.holds = 0 ∧ c.err = none then { c with ran := c.ran + dt } else c
  | .withTimeout _ => c
  | .hold => if g.holds + 1 = 1 ∧ c.inGroup = true then c.stopLocked g.now else c
  | .release k =>
      if g.released[k]? = some false ∧ g.holds - 1 = 0 ∧ c.inGroup = true then
        c.startLocked g.now
      else c
  | .fire j run => if i = j then c.fire g.now run else c
  | .expired j => if i = j then c.expired else c
  | .parentEnds j err => if i = j then { c with parentErr := c.parentErr.or (some err) } else c
  | .parentEnded j => if i = j then c.parentEnded else c
  | .cancel j => if i = j then c.endWith .canceled else c

/-- The clock `WithTimeout` makes. -/
def newClock (d : ℤ) : Clock :=
  let c : Clock := { duration := d, left := d }
  if g.holds = 0 then c.startLocked g.now else c

def step (a : Act) : Group :=
  let clocks := g.clocks.mapIdx (g.clockStep a)
  match a with
  | .pass dt => { g with now := g.now + dt, clocks }
  | .withTimeout d => { g with clocks := clocks ++ [g.newClock d] }
  | .hold => { g with holds := g.holds + 1, released := g.released ++ [false], clocks }
  | .release k =>
      if g.released[k]? = some false then
        { g with holds := g.holds - 1, released := g.released.set k true, clocks }
      else g
  | _ => { g with clocks }

end Group

/-! ## What holds of one clock -/

/-- `free` says that nothing holds the group. -/
structure ClockInv (free : Prop) (now : ℤ) (c : Clock) : Prop where
  registered : c.inGroup = true ↔ c.err = none
  ticking : c.timer = true ↔ c.err = none ∧ free
  once : c.closed = if c.err.isSome then 1 else 0
  running : c.timer = true → c.duration ≤ c.ran + (c.deadline - now)
  stopped : c.timer = false → c.err = none → c.duration ≤ c.ran + c.left
  armed : ∀ t ∈ c.armed, t.1 ≤ c.run ∧ (t.1 = c.run → c.timer = true → t.2 = c.deadline)
  expiring : 0 < c.expiring → c.duration ≤ c.ran
  exceeded : c.err = some .deadlineExceeded →
    c.duration ≤ c.ran ∨ c.parentErr = some .deadlineExceeded

section Clock

variable {free : Prop} {now : ℤ} {c : Clock}

theorem ClockInv.start (inv : ClockInv False now c) (live : c.err = none) :
    ClockInv True now (c.startLocked now) := by
  have idle : c.timer = false := Bool.eq_false_iff.mpr fun ticks => (inv.ticking.mp ticks).2
  have left := inv.stopped idle live
  simp only [Clock.startLocked, live, idle, Option.isSome_none, Bool.or_self, Bool.false_eq_true,
    if_false]
  refine ⟨inv.registered.trans (by rw [live]), by simp, ?_, fun _ => by simpa using left,
    nofun, ?_, inv.expiring, nofun⟩
  · exact inv.once.trans (by rw [live])
  · intro t member
    rw [List.mem_append, List.mem_singleton] at member
    rcases member with earlier | rfl
    · have old := (inv.armed t earlier).1
      exact ⟨by dsimp only; omega, fun same => by dsimp only at same; omega⟩
    · exact ⟨le_rfl, fun _ _ => rfl⟩

theorem ClockInv.stop (inv : ClockInv True now c) (live : c.err = none) :
    ClockInv False now (c.stopLocked now) := by
  have ticks : c.timer = true := inv.ticking.mpr ⟨live, trivial⟩
  have left := inv.running ticks
  simp only [Clock.stopLocked, ticks, Bool.not_true, Bool.false_eq_true, if_false]
  refine ⟨inv.registered, by simp, inv.once, nofun, fun _ _ => ?_, ?_, inv.expiring, inv.exceeded⟩
  · dsimp only
    omega
  · intro t member
    have old := (inv.armed t member).1
    exact ⟨by dsimp only; omega, fun _ ticking => nomatch ticking⟩

section

variable (inv : ClockInv free now c)

include inv

/-- A clock that has ended is not held and not released. -/
theorem ClockInv.ended {free' : Prop} {now' : ℤ}
    (hasEnded : c.err ≠ none) : ClockInv free' now' c := by
  have idle : ¬ c.timer = true := fun ticks => hasEnded (inv.ticking.mp ticks).1
  exact ⟨inv.registered, iff_of_false idle fun both => hasEnded both.1, inv.once,
    fun ticks => absurd ticks idle, fun _ live => absurd live hasEnded, inv.armed, inv.expiring,
    inv.exceeded⟩

theorem ClockInv.congr {free' : Prop} (same : free ↔ free') : ClockInv free' now c := by
  rw [propext same] at inv
  exact inv

theorem ClockInv.pass (live : c.err = none) (dt : ℕ) (isFree : free) :
    ClockInv free (now + dt) { c with ran := c.ran + dt } := by
  have ticks : c.timer = true := inv.ticking.mpr ⟨live, isFree⟩
  have left := inv.running ticks
  refine ⟨inv.registered, inv.ticking, inv.once, fun _ => ?_, fun idle => ?_, inv.armed,
    fun some_ => ?_, fun isOver => ?_⟩
  · dsimp only
    omega
  · exact nomatch idle.symm.trans ticks
  · have long := inv.expiring some_
    dsimp only
    omega
  · exact nomatch isOver.symm.trans live

theorem ClockInv.wait (held : ¬free) (now' : ℤ) : ClockInv free now' c := by
  have idle : ¬ c.timer = true := fun ticks => held (inv.ticking.mp ticks).2
  exact ⟨inv.registered, inv.ticking, inv.once, fun ticks => absurd ticks idle, inv.stopped,
    inv.armed, inv.expiring, inv.exceeded⟩

theorem ClockInv.endWith {err : CtxErr} (cause : err = .deadlineExceeded →
      c.duration ≤ c.ran ∨ c.parentErr = some .deadlineExceeded) :
    ClockInv free now (c.endWith err) := by
  unfold Clock.endWith
  split
  next => exact inv
  next live =>
    rw [Option.not_isSome_iff_eq_none] at live
    refine ⟨by simp, by simp, ?_, nofun, fun _ live => (nomatch live), fun t member => ?_,
      inv.expiring, fun isOver => cause (Option.some.inj isOver)⟩
    · simp [inv.once, live]
    · exact ⟨(inv.armed t member).1, fun _ ticks => nomatch ticks⟩

/-- A callback that finds its run current found the clock's whole time gone. -/
theorem ClockInv.fire (run : ℕ) : ClockInv free now (c.fire now run) := by
  unfold Clock.fire
  split
  next due =>
    obtain ⟨t, member, isDue⟩ := List.any_eq_true.mp due
    rw [Bool.and_eq_true, beq_iff_eq, decide_eq_true_eq] at isDue
    refine ⟨inv.registered, inv.ticking, inv.once, inv.running, inv.stopped,
      fun u kept => inv.armed u (List.mem_filter.mp kept).1, fun some_ => ?_, inv.exceeded⟩
    dsimp only at some_ ⊢
    split at some_
    next current =>
      have when_ := (inv.armed t member).2 (isDue.1.trans current.1.symm) current.2
      have left := inv.running current.2
      omega
    next => exact inv.expiring some_
  next => exact inv

theorem ClockInv.expired : ClockInv free now c.expired := by
  unfold Clock.expired
  split
  next some_ =>
    have long := inv.expiring some_
    refine ClockInv.endWith (c := { c with expiring := c.expiring - 1 }) ?_ fun _ => Or.inl long
    exact ⟨inv.registered, inv.ticking, inv.once, inv.running, inv.stopped, inv.armed,
      fun _ => long, inv.exceeded⟩
  next => exact inv

theorem ClockInv.parentEnds (err : CtxErr) :
    ClockInv free now { c with parentErr := c.parentErr.or (some err) } :=
  ⟨inv.registered, inv.ticking, inv.once, inv.running, inv.stopped, inv.armed, inv.expiring,
    fun isOver => (inv.exceeded isOver).imp_right fun ended => by rw [ended]; rfl⟩

theorem ClockInv.parentEnded : ClockInv free now c.parentEnded := by
  unfold Clock.parentEnded
  split
  next err ended => exact inv.endWith fun same => Or.inr (same ▸ ended)
  next => exact inv

end

end Clock

/-! ## An end is final -/

/-- What becomes of a clock: it keeps its duration and, once it has ended, its error. -/
structure Kept (c c' : Clock) : Prop where
  duration : c'.duration = c.duration
  err : ∀ err, c.err = some err → c'.err = some err

theorem Kept.refl (c : Clock) : Kept c c := ⟨rfl, fun _ => id⟩

theorem Kept.trans {c c' c'' : Clock} (one : Kept c c') (two : Kept c' c'') : Kept c c'' :=
  ⟨two.duration.trans one.duration, fun err ended => two.err err (one.err err ended)⟩

theorem kept_endWith (c : Clock) (err : CtxErr) : Kept c (c.endWith err) := by
  unfold Clock.endWith
  split
  next => exact Kept.refl c
  next live => exact ⟨rfl, fun e ended => absurd (by rw [ended]; rfl) live⟩

theorem kept_clockStep (g : Group) (a : Act) (i : ℕ) (c : Clock) :
    Kept c (g.clockStep a i c) := by
  unfold Group.clockStep
  cases a with
  | withTimeout => exact Kept.refl c
  | pass | parentEnds =>
    dsimp only
    split
    next => exact ⟨rfl, fun _ => id⟩
    next => exact Kept.refl c
  | hold =>
    dsimp only [Clock.stopLocked]
    split_ifs <;> exact ⟨rfl, fun _ => id⟩
  | release =>
    dsimp only [Clock.startLocked]
    split_ifs <;> exact ⟨rfl, fun _ => id⟩
  | fire =>
    dsimp only [Clock.fire]
    split_ifs <;> exact ⟨rfl, fun _ => id⟩
  | expired =>
    dsimp only [Clock.expired]
    split_ifs
    next =>
      have counted : Kept c { c with expiring := c.expiring - 1 } := ⟨rfl, fun _ => id⟩
      exact counted.trans (kept_endWith _ _)
    all_goals exact Kept.refl c
  | parentEnded =>
    dsimp only [Clock.parentEnded]
    split
    next =>
      split
      next => exact kept_endWith c _
      next => exact Kept.refl c
    next => exact Kept.refl c
  | cancel =>
    dsimp only
    split
    next => exact kept_endWith c _
    next => exact Kept.refl c

/-! ## Runs -/

/-- What holds of a group after every step: its holds are the calls of `Hold` not released yet,
and every clock is in order. -/
structure GroupInv (g : Group) : Prop where
  holds : g.holds = g.released.count false
  clocks : ∀ c ∈ g.clocks, ClockInv (g.holds = 0) g.now c

namespace GroupInv

variable {g : Group}

theorem newClock (d : ℤ) : ClockInv (g.holds = 0) g.now (g.newClock d) := by
  have fresh : ClockInv False g.now { duration := d, left := d } :=
    ⟨by simp, by simp, rfl, nofun, fun _ _ => by simp, nofun, nofun, nofun⟩
  unfold Group.newClock
  dsimp only
  split
  next free => exact (fresh.start rfl).congr (iff_of_true trivial free)
  next held => exact fresh.congr (iff_of_false id held)

/-- One step on a clock that was there before it. -/
theorem clockStep (inv : GroupInv g) (a : Act) (i : ℕ) {c : Clock} (member : c ∈ g.clocks) :
    ClockInv ((g.step a).holds = 0) (g.step a).now (g.clockStep a i c) := by
  have old := inv.clocks c member
  have count := inv.holds
  unfold Group.step Group.clockStep
  cases a with
  | pass dt =>
    dsimp only
    split
    next free => exact old.pass free.2 dt free.1
    next other =>
      by_cases held : g.holds = 0
      · exact old.ended fun live => other ⟨held, live⟩
      · exact old.wait held _
  | withTimeout => exact old
  | hold =>
    dsimp only
    have held : ¬g.holds + 1 = 0 := by omega
    split
    next first =>
      have free : g.holds = 0 := by omega
      refine ClockInv.congr ?_ (iff_of_false id held)
      exact (old.congr (iff_of_true free trivial)).stop (old.registered.mp first.2)
    next other =>
      by_cases live : c.err = none
      · have was : ¬g.holds = 0 := fun free => other ⟨by omega, old.registered.mpr live⟩
        exact old.congr (iff_of_false was held)
      · exact old.ended live
  | release k =>
    dsimp only
    split
    next mine =>
      have some_ : 0 < g.released.count false :=
        List.count_pos_iff.mpr (List.mem_of_getElem? mine)
      have held : ¬g.holds = 0 := by omega
      dsimp only
      split
      next last =>
        refine ClockInv.congr ?_ (iff_of_true trivial last.2.1)
        exact (old.congr (iff_of_false held id)).start (old.registered.mp last.2.2)
      next other =>
        by_cases live : c.err = none
        · have still : ¬g.holds - 1 = 0 := fun free =>
            other ⟨mine, free, old.registered.mpr live⟩
          exact old.congr (iff_of_false held still)
        · exact old.ended live
    next spent =>
      rw [if_neg fun last => spent last.1]
      exact old
  | fire j run =>
    dsimp only
    split
    next => exact old.fire run
    next => exact old
  | expired j =>
    dsimp only
    split
    next => exact old.expired
    next => exact old
  | parentEnds j err =>
    dsimp only
    split
    next => exact old.parentEnds err
    next => exact old
  | parentEnded j =>
    dsimp only
    split
    next => exact old.parentEnded
    next => exact old
  | cancel j =>
    dsimp only
    split
    next => exact old.endWith nofun
    next => exact old

end GroupInv

theorem clockStep_spent {g : Group} {k : ℕ} (spent : g.released[k]? ≠ some false) (i : ℕ)
    (c : Clock) : g.clockStep (.release k) i c = c := by
  simp [Group.clockStep, spent]

/-- The clocks after a step: those before it, each stepped, and the one `WithTimeout` makes. -/
theorem step_clocks (g : Group) (a : Act) : (g.step a).clocks =
    g.clocks.mapIdx (g.clockStep a) ++
      match a with
      | .withTimeout d => [g.newClock d]
      | _ => [] := by
  cases a with
  | release k =>
    by_cases mine : g.released[k]? = some false
    · simp [Group.step, mine]
    · have same : g.clockStep (.release k) = fun _ c => c :=
        funext₂ (clockStep_spent mine)
      refine List.ext_getElem? fun j => ?_
      simp [Group.step, mine, same]
  | _ => simp [Group.step]

theorem GroupInv.step {g : Group} (inv : GroupInv g) (a : Act) : GroupInv (g.step a) := by
  constructor
  · have count := inv.holds
    cases a with
    | hold => simp [Group.step, count]
    | release k =>
      unfold Group.step
      dsimp only
      split
      next mine =>
        have inside := (List.getElem?_eq_some_iff.mp mine).1
        have was := (List.getElem?_eq_some_iff.mp mine).2
        have some_ : 0 < g.released.count false :=
          List.count_pos_iff.mpr (List.mem_of_getElem? mine)
        simp only [List.count_set inside, was]
        simp
        omega
      next => exact count
    | _ => exact count
  · intro c member
    rw [step_clocks, List.mem_append] at member
    rcases member with before | new
    · obtain ⟨i, inside, rfl⟩ := List.mem_mapIdx.mp before
      exact inv.clockStep a i (List.getElem_mem inside)
    · cases a with
      | withTimeout d =>
        rw [List.mem_singleton.mp new]
        exact GroupInv.newClock d
      | _ => exact absurd new List.not_mem_nil

/-- The group of a connection after a schedule of steps. -/
def runs (acts : List Act) : Group := acts.foldl Group.step {}

theorem runs_inv (acts : List Act) : GroupInv (runs acts) := by
  have start : GroupInv {} := ⟨rfl, fun _ member => absurd member List.not_mem_nil⟩
  unfold runs
  exact (legal_true _ acts).foldl (fun _ a inv _ => inv.step a) start

theorem foldl_kept (more : List Act) : ∀ (g : Group) {i : ℕ} {c : Clock},
    g.clocks[i]? = some c → ∃ c', (more.foldl Group.step g).clocks[i]? = some c' ∧ Kept c c' := by
  induction more with
  | nil => exact fun g i c here => ⟨c, here, Kept.refl c⟩
  | cons a more ih =>
    intro g i c here
    have inside := (List.getElem?_eq_some_iff.mp here).1
    have next_ : (g.step a).clocks[i]? = some (g.clockStep a i c) := by
      rw [step_clocks, List.getElem?_append_left (by simpa using inside), List.getElem?_mapIdx,
        here]
      rfl
    obtain ⟨c', there, kept⟩ := ih (g.step a) next_
    exact ⟨c', there, (kept_clockStep g a i c).trans kept⟩

/-- Whatever the schedule, a clock has a running timer exactly when it has not ended and no hold
is in force, it has ended with `DeadlineExceeded` only if it ran for its whole time with nothing
holding it or its parent ended with that error, and it is ended at most once and for good. -/
theorem runs_clock (acts more : List Act) (i : ℕ) (c : Clock)
    (here : (runs acts).clocks[i]? = some c) :
    (runs acts).holds = (runs acts).released.count false ∧
      (c.timer = true ↔ c.err = none ∧ (runs acts).holds = 0) ∧
      (c.err = some .deadlineExceeded →
        c.duration ≤ c.ran ∨ c.parentErr = some .deadlineExceeded) ∧
      c.closed = (if c.err.isSome then 1 else 0) ∧
      ∃ c', (runs (acts ++ more)).clocks[i]? = some c' ∧ Kept c c' := by
  have inv := runs_inv acts
  have clock := inv.clocks c (List.mem_of_getElem? here)
  refine ⟨inv.holds, clock.ticking, clock.exceeded, clock.once, ?_⟩
  unfold runs at here ⊢
  rw [List.foldl_append]
  exact foldl_kept more _ here

/-- A statement of five seconds that waits in a line between its third and its ninth second: the
timer of before the wait fires late and finds that it is not the current one. -/
def waited : List Act :=
  [.withTimeout 5, .pass 3, .hold, .pass 6, .fire 0 1, .release 0, .pass 1, .release 0, .pass 1,
    .fire 0 3, .expired 0]

theorem waited_clock :
    (runs waited).clocks[0]?.map (fun c => (c.err, c.duration, c.ran)) =
        some (some .deadlineExceeded, 5, 5) ∧
      ∃ c', (runs (waited ++ [.cancel 0])).clocks[0]? = some c' ∧
        c'.err = some .deadlineExceeded := by
  obtain ⟨c, here, reads⟩ : ∃ c, (runs waited).clocks[0]? = some c ∧
      (c.err, c.duration, c.ran) = (some .deadlineExceeded, 5, 5) := ⟨_, rfl, rfl⟩
  obtain ⟨_, _, _, _, c', there, kept⟩ := runs_clock waited [.cancel 0] 0 c here
  exact ⟨by rw [here, Option.map_some, reads], c', there, kept.err _ (congrArg Prod.fst reads)⟩

/-- A parent that runs out first ends the clock with its own `DeadlineExceeded`. -/
theorem parent_ranOut :
    (runs [.withTimeout 5, .pass 1, .parentEnds 0 .deadlineExceeded, .parentEnded 0]).clocks.map
        (fun c => (c.err, c.duration, c.ran)) =
      [(some .deadlineExceeded, 5, 1)] := by
  decide

end Dbtrail.Stmtclock
