import Dbtrail.Lib.Run

/-!
# Processes that can stop between any two writes

A process holds a memory and a disk. Its memory is lost when it stops, its disk
stays, and it can stop at any moment, so what a later process may find is any
disk the run passed through. `Proc` carries those disks along (`visited`); a
run is a fold of a step over a schedule, and a history of stops and restarts is
the closure of `StopsAt`.
-/

namespace Dbtrail

/-- A running process, with every disk it has left behind so far. -/
structure Proc (Mem Disk : Type) : Type where
  mem : Mem
  disk : Disk
  visited : List Disk

variable {Mem Disk Act Cfg : Type}

namespace Proc

/-- A process that starts with nothing written yet. -/
def boot (mem : Mem) (disk : Disk) : Proc Mem Disk := ⟨mem, disk, [disk]⟩

def modifyMem (p : Proc Mem Disk) (f : Mem → Mem) : Proc Mem Disk := { p with mem := f p.mem }

/-- One write, all of it or nothing. -/
def persist (p : Proc Mem Disk) (f : Disk → Disk) : Proc Mem Disk :=
  { p with disk := f p.disk, visited := p.visited ++ [f p.disk] }

@[simp] theorem modifyMem_mem (p : Proc Mem Disk) (f : Mem → Mem) :
    (p.modifyMem f).mem = f p.mem := rfl

@[simp] theorem mem_visited_persist {p : Proc Mem Disk} {f : Disk → Disk} {d : Disk} :
    d ∈ (p.persist f).visited ↔ d ∈ p.visited ∨ d = f p.disk := by
  simp [persist]

end Proc

variable {step : Proc Mem Disk → Act → Proc Mem Disk} {ok : Proc Mem Disk → Act → Prop}

/-- A disk some run started from `d` can leave behind. Every run has a
configuration of its own. -/
def StopsAt (start : Cfg → Disk → Proc Mem Disk) (step : Proc Mem Disk → Act → Proc Mem Disk)
    (ok : Proc Mem Disk → Act → Prop) (d d' : Disk) : Prop :=
  ∃ cfg acts, Legal step ok (start cfg d) acts ∧ d' ∈ (acts.foldl step (start cfg d)).visited

/-- If a run from a good disk keeps an invariant, and the invariant makes every
disk left behind good, then disks stay good over any number of stops. -/
theorem left_of_stops {start : Cfg → Disk → Proc Mem Disk} {inv : Proc Mem Disk → Prop}
    {left : Disk → Prop} (starts : ∀ cfg d, left d → inv (start cfg d))
    (keeps : ∀ p a, inv p → ok p a → inv (step p a))
    (behind : ∀ p, inv p → ∀ d ∈ p.visited, left d) {d d' : Disk}
    (stops : Relation.ReflTransGen (StopsAt start step ok) d d') (first : left d) : left d' := by
  induction stops with
  | refl => exact first
  | tail _ last ih =>
    obtain ⟨cfg, acts, legal, member⟩ := last
    exact behind _ (legal.foldl keeps (starts cfg _ ih)) _ member

end Dbtrail
