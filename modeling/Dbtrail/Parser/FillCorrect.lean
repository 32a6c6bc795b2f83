import Mathlib

/-!
# Positions after a reconnect

A MariaDB source leaves the end position out of the events it copied from a transaction's
cache. The replication library fills it in, from the last position it knows plus the event's
size. When a connection begins in the middle of a file, the source first sends the file's
format description again, without a position; the library counts it as if it stood at the
place of the resume, and what it fills in after that is too far by the size of that event.
`ResumeFillCorrector` takes the excess off again until a position from the file comes by.

`Server.Serves` is what a source sends, `fill` is what the library makes of it, and
`Stream.receive` puts the corrector behind both. Over every run, with reconnects anywhere,
`Stream.Reachable.synced` says how the three positions stand to each other.
-/

namespace Dbtrail.Parser

/-! ## The corrector -/

structure EventHeader : Type where
  /-- The flag for events that are not in the file. -/
  artificial : Bool
  eventSize : UInt32
  logPos : UInt32
  deriving DecidableEq, Repr

inductive EventBody : Type where
  | rotate (position : UInt64)
  | formatDescription
  | other
  deriving DecidableEq, Repr

structure StreamedEvent : Type where
  header : EventHeader
  body : EventBody
  deriving DecidableEq, Repr

def StreamedEvent.setLogPos (ev : StreamedEvent) (pos : UInt32) : StreamedEvent :=
  { ev with header := { ev.header with logPos := pos } }

structure ResumeFillCorrector : Type where
  /-- Between an artificial rotate and the first event with a position after it. -/
  armed : Bool := false
  /-- The offset that rotate named. -/
  base : UInt32 := 0
  /-- The size of the format description sent again, once seen. -/
  ghost : UInt32 := 0
  /-- The excess being taken off; zero when there is none. -/
  adjust : UInt32 := 0
  prevTrue : UInt32 := 0
  deriving DecidableEq, Repr

/-- The corrector afterwards, the event as it goes on, and whether its header was rewritten. -/
def ResumeFillCorrector.observe (c : ResumeFillCorrector) (ev : StreamedEvent) :
    ResumeFillCorrector × StreamedEvent × Bool :=
  match ev.body with
  | .rotate position =>
      if ev.header.artificial then ({ armed := true, base := position.toUInt32 }, ev, false)
      else ({}, ev, false)
  | .formatDescription =>
      if ev.header.artificial then (c, ev, false)
      else if c.armed && decide (4 < c.base) then
        ({ c with ghost := ev.header.eventSize }, ev, false)
      else ({}, ev, false)
  | .other =>
      if ev.header.artificial then (c, ev, false)
      else if c.armed then
        let expected := c.base + ev.header.eventSize
        if c.ghost = 0 then ({}, ev, false)
        else if ev.header.logPos = expected + c.ghost then
          ({ adjust := c.ghost, prevTrue := expected }, ev.setLogPos expected, true)
        else ({}, ev, false)
      else if c.adjust ≠ 0 then
        let expected := c.prevTrue + ev.header.eventSize
        if ev.header.logPos = expected + c.adjust then
          ({ c with prevTrue := expected }, ev.setLogPos expected, true)
        else ({}, ev, false)
      else (c, ev, false)

open ResumeFillCorrector

/-! ## The library -/

/-- A missing position becomes the last known one plus the size. -/
def fill (last : UInt32) (ev : StreamedEvent) : StreamedEvent :=
  if ev.header.logPos = 0 ∧ ev.header.artificial = false then
    ev.setLogPos (last + ev.header.eventSize)
  else ev

/-- What the library knows after an event it has filled. -/
def lastKnown (last : UInt32) (ev : StreamedEvent) : UInt32 :=
  match ev.body with
  | .rotate position => position.toUInt32
  | _ => if ev.header.artificial then last else ev.header.logPos

theorem fill_body (last : UInt32) (ev : StreamedEvent) : (fill last ev).body = ev.body := by
  unfold fill
  split <;> rfl

theorem fill_artificial (last : UInt32) (ev : StreamedEvent) :
    (fill last ev).header.artificial = ev.header.artificial := by
  unfold fill
  split <;> rfl

/-- After a file's own rotate nothing is left to correct. -/
theorem ResumeFillCorrector.observe_of_rotate (c : ResumeFillCorrector) {ev : StreamedEvent}
    {position : UInt64} (body : ev.body = .rotate position)
    (real : ev.header.artificial = false) : c.observe ev = ({}, ev, false) := by
  simp [observe, body, real]

/-! ## Files and what a source sends of them -/

/-- An event in a file: its size, and whether its header has its end position. -/
structure FileEvent : Type where
  size : ℕ
  known : Bool
  deriving DecidableEq, Repr

/-- A file of contiguous events: a format description, ordinary events, and a rotate to the
next file unless the source stopped before it wrote one. Its offsets fit a header. -/
structure BinlogFile : Type where
  format : FileEvent
  ordinary : List FileEvent
  rotate : Option FileEvent
  sized : 0 < format.size
  small : 4 + format.size + (ordinary.map FileEvent.size).sum +
    (rotate.elim 0 FileEvent.size) < 2 ^ 32

namespace BinlogFile

/-- The offset where the event with an index begins. -/
def offset (file : BinlogFile) : ℕ → ℕ
  | 0 => 4
  | i + 1 => 4 + file.format.size + ((file.ordinary.take i).map FileEvent.size).sum

theorem offset_one (file : BinlogFile) : file.offset 1 = 4 + file.format.size := rfl

theorem offset_succ {file : BinlogFile} {i : ℕ} {e : FileEvent}
    (found : file.ordinary[i]? = some e) :
    file.offset (i + 2) = file.offset (i + 1) + e.size := by
  simp only [offset, List.take_add_one, found, Option.toList_some, List.map_append,
    List.map_cons, List.map_nil, List.sum_append, List.sum_cons, List.sum_nil]
  omega

theorem offset_lt (file : BinlogFile) (i : ℕ) : file.offset i < 2 ^ 32 := by
  have small := file.small
  cases i with
  | zero => simp [offset]
  | succ i =>
    have part : ((file.ordinary.take i).map FileEvent.size).sum ≤
        (file.ordinary.map FileEvent.size).sum :=
      ((List.take_sublist i file.ordinary).map FileEvent.size).sum_le_sum fun _ _ => Nat.zero_le _
    simp only [offset]
    omega

theorem four_lt_offset (file : BinlogFile) {i : ℕ} (inside : 0 < i) : 4 < file.offset i := by
  have sized := file.sized
  obtain ⟨i, rfl⟩ := Nat.exists_eq_succ_of_ne_zero inside.ne'
  simp only [offset]
  omega

theorem offset_pos (file : BinlogFile) (i : ℕ) : 0 < file.offset i := by
  cases i with
  | zero => exact Nat.succ_pos 3
  | succ i =>
    simp only [offset]
    omega

end BinlogFile

/-- An event in its file, as it is sent. -/
def FileEvent.sent (e : FileEvent) (endsAt : ℕ) (body : EventBody) : StreamedEvent :=
  ⟨⟨false, UInt32.ofNat e.size, if e.known then UInt32.ofNat endsAt else 0⟩, body⟩

theorem FileEvent.sent_logPos {e : FileEvent} {endsAt : ℕ} {body : EventBody}
    (given : (e.sent endsAt body).header.logPos ≠ 0) :
    (e.sent endsAt body).header.logPos = UInt32.ofNat endsAt := by
  unfold FileEvent.sent at given ⊢
  split at given
  next known => rw [if_pos known]
  next => exact absurd rfl given

/-- What is sent, with the end offset of the event in its file, and whether it is a file's
format description sent again. -/
structure Served : Type where
  event : StreamedEvent
  trueEnd : Option ℕ
  resent : Bool
  deriving DecidableEq, Repr

/-- Where the source is: a rotate sent and the format description due, or the index of the
event it reads next, or past a file's own rotate. -/
inductive Server : Type where
  | idle
  | connected (file : BinlogFile) (index : ℕ)
  | reading (file : BinlogFile) (index : ℕ)
  | rotated

/-- A connection begins at any event of any file, whatever was sent before. -/
inductive Server.Serves : Server → Served → Server → Prop
  | connect (source : Server) (file : BinlogFile) (index : ℕ) :
      Serves source
        ⟨⟨⟨true, 0, 0⟩, .rotate (UInt64.ofNat (file.offset index))⟩, none, false⟩
        (.connected file index)
  | describe (file : BinlogFile) (index : ℕ) :
      Serves (.connected file (index + 1))
        ⟨⟨⟨false, UInt32.ofNat file.format.size, 0⟩, .formatDescription⟩,
          some (file.offset 1), true⟩
        (.reading file (index + 1))
  | first (file : BinlogFile) :
      Serves (.connected file 0)
        ⟨file.format.sent (file.offset 1) .formatDescription, some (file.offset 1), false⟩
        (.reading file 1)
  | next (file : BinlogFile) (index : ℕ) (e : FileEvent) (found : file.ordinary[index]? = some e) :
      Serves (.reading file (index + 1))
        ⟨e.sent (file.offset (index + 2)) .other, some (file.offset (index + 2)), false⟩
        (.reading file (index + 2))
  | rotate (file : BinlogFile) (e : FileEvent) (found : file.rotate = some e) :
      Serves (.reading file (file.ordinary.length + 1))
        ⟨e.sent (file.offset (file.ordinary.length + 1) + e.size) (.rotate 4),
          some (file.offset (file.ordinary.length + 1) + e.size), false⟩
        .rotated
  | follow (file : BinlogFile) :
      Serves .rotated
        ⟨file.format.sent (file.offset 1) .formatDescription, some (file.offset 1), false⟩
        (.reading file 1)
  | artificial (source : Server) (size : UInt32) :
      Serves source ⟨⟨⟨true, size, 0⟩, .other⟩, none, false⟩ source

/-! ## The stream -/

/-- `genuine`: since the connection began, a position came from the file. -/
structure Stream : Type where
  source : Server
  last : UInt32
  corrector : ResumeFillCorrector
  genuine : Bool

def Stream.init : Stream := ⟨.idle, 0, {}, false⟩

/-- What the library and then the corrector make of an event. -/
def Stream.receive (s : Stream) (served : Served) (source : Server) :
    Stream × StreamedEvent × Bool :=
  let filled := fill s.last served.event
  let observed := s.corrector.observe filled
  let genuine := match source with
    | .connected _ _ => false
    | _ => s.genuine || served.event.header.logPos != 0
  (⟨source, lastKnown s.last filled, observed.1, genuine⟩, observed.2)

inductive Stream.Reachable : Stream → Prop
  | init : Reachable .init
  | receive {s : Stream} {served : Served} {source : Server} (reached : Reachable s)
      (serves : s.source.Serves served source) : Reachable (s.receive served source).1

/-! ## How the positions stand to each other -/

/-- While a file is read from an offset on, the library knows the offset, or it is too far by
an excess and the corrector knows by how much. -/
inductive Synced (offset : UInt32) : UInt32 → ResumeFillCorrector → Bool → Prop
  | quiet (genuine : Bool) : Synced offset offset {} genuine
  | armed (ghost : UInt32) (some : ghost ≠ 0) :
      Synced offset (offset + ghost) { armed := true, base := offset, ghost := ghost } false
  | window (adjust : UInt32) (some : adjust ≠ 0) :
      Synced offset (offset + adjust) { adjust := adjust, prevTrue := offset } false

def Stream.Synced (s : Stream) : Prop :=
  match s.source with
  | .idle => s.corrector = {}
  | .connected file index =>
      s.last = UInt32.ofNat (file.offset index) ∧
        s.corrector = { armed := true, base := UInt32.ofNat (file.offset index) } ∧
        s.genuine = false
  | .reading file index =>
      Parser.Synced (UInt32.ofNat (file.offset index)) s.last s.corrector s.genuine
  | .rotated => s.last = 4 ∧ s.corrector = {}

theorem ofNat_ne_zero {n : ℕ} (pos : 0 < n) (small : n < 2 ^ 32) : UInt32.ofNat n ≠ 0 := by
  intro zero
  have same := congrArg UInt32.toNat zero
  rw [UInt32.toNat_ofNat_of_lt' small] at same
  simp at same
  omega

/-- An ordinary event keeps the positions synced and leaves with its true end. -/
theorem Synced.next {offset last size pos : UInt32} {c : ResumeFillCorrector} {genuine : Bool}
    (synced : Synced offset last c genuine) (nonzero : offset + size ≠ 0)
    (sent : pos = 0 ∨ pos = offset + size) :
    let filled := fill last ⟨⟨false, size, pos⟩, .other⟩
    let observed := c.observe filled
    Synced (offset + size) (lastKnown last filled) observed.1 (genuine || pos != 0) ∧
      observed.2.1.header.logPos = offset + size ∧
      ((genuine || pos != 0) = true → observed.2.2 = false) := by
  rcases sent with rfl | rfl
  · -- The position is missing: the library fills it in, with its excess if it has one.
    cases synced with
    | quiet genuine =>
      simpa [fill, lastKnown, observe, StreamedEvent.setLogPos] using
        Synced.quiet genuine
    | armed ghost some =>
      have moved : offset + ghost + size = offset + size + ghost := by ac_rfl
      simpa [fill, lastKnown, observe, StreamedEvent.setLogPos, moved, some]
        using Synced.window ghost some
    | window adjust some =>
      have moved : offset + adjust + size = offset + size + adjust := by ac_rfl
      simpa [fill, lastKnown, observe, StreamedEvent.setLogPos, moved, some]
        using Synced.window adjust some
  · -- The position is the file's own, and the corrector has no excess to take off.
    cases synced with
    | quiet genuine =>
      simpa [fill, lastKnown, observe, nonzero] using
        Synced.quiet (genuine || offset + size != 0)
    | armed _ some | window _ some =>
      simpa [fill, lastKnown, observe, nonzero, some] using
        @Synced.quiet (offset + size) (offset + size != 0)

/-- A format description read where it stands. -/
theorem first_synced {c : ResumeFillCorrector} (file : BinlogFile) (genuine : Bool)
    (idle : c.armed = false ∨ c.base = 4) :
    let filled := fill 4 (file.format.sent (file.offset 1) .formatDescription)
    let observed := c.observe filled
    Synced (UInt32.ofNat (file.offset 1)) (lastKnown 4 filled) observed.1 genuine ∧
      observed.2.1.header.logPos = UInt32.ofNat (file.offset 1) ∧ observed.2.2 = false := by
  have sum : UInt32.ofNat (file.offset 1) = 4 + UInt32.ofNat file.format.size := by
    rw [file.offset_one, UInt32.ofNat_add]
    rfl
  have filled : fill 4 (file.format.sent (file.offset 1) .formatDescription) =
      ⟨⟨false, UInt32.ofNat file.format.size, UInt32.ofNat (file.offset 1)⟩,
        .formatDescription⟩ := by
    cases known : file.format.known <;>
      simp [fill, FileEvent.sent, known, StreamedEvent.setLogPos, sum]
  have unarmed : (c.armed && decide (4 < c.base)) = false := by
    rcases idle with unarmed | base <;> simp_all
  dsimp only
  rw [filled]
  simpa [observe, lastKnown, unarmed] using
    @Synced.quiet (UInt32.ofNat (file.offset 1)) genuine

/-- What holds of an event as it goes on: its true end, a file description sent again and a
rotate without a position apart, and nothing is rewritten after a position from the file. -/
def Leaves (served : Served) (genuine : Bool) (out : StreamedEvent) (rewrote : Bool) : Prop :=
  (∀ t, served.trueEnd = some t → served.resent = false →
    (∀ position, served.event.body = .rotate position → served.event.header.logPos ≠ 0) →
    out.header.logPos.toNat = t) ∧
  (genuine = true → rewrote = false)

theorem located {out : StreamedEvent} {endsAt t : ℕ}
    (leaves : out.header.logPos = UInt32.ofNat endsAt) (isEnd : some endsAt = some t)
    (small : endsAt < 2 ^ 32) : out.header.logPos.toNat = t := by
  rw [leaves, UInt32.toNat_ofNat_of_lt' small]
  exact Option.some.inj isEnd

theorem Stream.Synced.receive {s : Stream} {served : Served} {source : Server}
    (synced : s.Synced) (serves : s.source.Serves served source) :
    (s.receive served source).1.Synced ∧
      Leaves served (s.receive served source).1.genuine (s.receive served source).2.1
        (s.receive served source).2.2 := by
  obtain ⟨current, last, c, genuine⟩ := s
  cases serves with
  | connect _ file index =>
    refine ⟨⟨?_, ?_, rfl⟩, nofun, nofun⟩
    · simp [Stream.receive, fill, lastKnown]
    · simp [Stream.receive, fill, observe]
  | describe file index =>
    obtain ⟨atOffset, armed, early⟩ := synced
    dsimp only at atOffset armed early
    subst atOffset armed early
    have inside : 4 < UInt32.ofNat (file.offset (index + 1)) := by
      rw [UInt32.lt_iff_toNat_lt, UInt32.toNat_ofNat_of_lt' (file.offset_lt _)]
      exact file.four_lt_offset (Nat.succ_pos index)
    have some : UInt32.ofNat file.format.size ≠ 0 :=
      ofNat_ne_zero file.sized (by have := file.small; omega)
    refine ⟨?_, nofun, nofun⟩
    simpa [Stream.Synced, Stream.receive, fill, lastKnown, observe, inside,
      StreamedEvent.setLogPos] using Parser.Synced.armed _ some
  | first file =>
    obtain ⟨atStart, armed, early⟩ := synced
    dsimp only at atStart armed early
    subst atStart armed early
    obtain ⟨kept, atEnd, same⟩ := first_synced (c := { armed := true, base := 4 }) file
      (false || (file.format.sent (file.offset 1) .formatDescription).header.logPos != 0)
      (Or.inr rfl)
    exact ⟨kept, fun t isEnd _ _ => located atEnd isEnd (file.offset_lt 1), fun _ => same⟩
  | next file index e found =>
    have ends : UInt32.ofNat (file.offset (index + 2)) =
        UInt32.ofNat (file.offset (index + 1)) + UInt32.ofNat e.size := by
      rw [BinlogFile.offset_succ found, UInt32.ofNat_add]
    have nonzero := ofNat_ne_zero (file.offset_pos (index + 2)) (file.offset_lt (index + 2))
    rw [ends] at nonzero
    have sent : (e.sent (file.offset (index + 2)) .other).header.logPos = 0 ∨
        (e.sent (file.offset (index + 2)) .other).header.logPos =
          UInt32.ofNat (file.offset (index + 1)) + UInt32.ofNat e.size := by
      rw [← ends]
      exact or_iff_not_imp_left.mpr FileEvent.sent_logPos
    obtain ⟨kept, atEnd, same⟩ := Parser.Synced.next synced nonzero sent
    rw [← ends] at kept atEnd
    exact ⟨kept, fun t isEnd _ _ => located atEnd isEnd (file.offset_lt (index + 2)), same⟩
  | rotate file e found =>
    have fits : file.offset (file.ordinary.length + 1) + e.size < 2 ^ 32 := by
      have small := file.small
      simp only [found, Option.elim_some] at small
      simp only [BinlogFile.offset, List.take_length]
      omega
    set sent := e.sent (file.offset (file.ordinary.length + 1) + e.size) (.rotate 4)
    have body : (fill last sent).body = .rotate 4 := fill_body last sent
    have observed := c.observe_of_rotate body (fill_artificial last sent)
    refine ⟨⟨?_, congrArg Prod.fst observed⟩, ?_, fun _ => congrArg (·.2.2) observed⟩
    · simp only [Stream.receive, lastKnown, body]
      rfl
    · intro t isEnd _ known
      have given : sent.header.logPos ≠ 0 := known 4 rfl
      refine located ?_ isEnd fits
      have unfilled : fill last sent = sent := by
        unfold fill
        rw [if_neg fun missing => given missing.1]
      show (c.observe (fill last sent)).2.1.header.logPos = _
      rw [observed, unfilled]
      exact FileEvent.sent_logPos given
  | follow file =>
    obtain ⟨atStart, quiet⟩ := synced
    dsimp only at atStart quiet
    subst atStart quiet
    obtain ⟨kept, atEnd, same⟩ := first_synced (c := {}) file
      (genuine || (file.format.sent (file.offset 1) .formatDescription).header.logPos != 0)
      (Or.inl rfl)
    exact ⟨kept, fun t isEnd _ _ => located atEnd isEnd (file.offset_lt 1), fun _ => same⟩
  | artificial _ size =>
    refine ⟨?_, nofun, fun _ => rfl⟩
    cases current with
    | connected file index => exact ⟨synced.1, synced.2.1, rfl⟩
    | reading file index =>
      simpa [Stream.receive, Stream.Synced, fill, lastKnown, observe]
        using synced
    | idle | rotated => exact synced

theorem Stream.Reachable.synced {s : Stream} (reached : s.Reachable) : s.Synced := by
  induction reached with
  | init => rfl
  | receive _ serves ih => exact (ih.receive serves).1

/-- Whatever was sent and wherever connections began, an event of the file leaves with its true
end offset, and after a position from the file no header of the connection is rewritten. -/
theorem Stream.Reachable.leaves {s : Stream} {served : Served} {source : Server}
    (reached : s.Reachable) (serves : s.source.Serves served source) :
    Leaves served (s.receive served source).1.genuine (s.receive served source).2.1
      (s.receive served source).2.2 :=
  (reached.synced.receive serves).2

/-! ## A resume inside a transaction -/

/-- A transaction's last statement and its end, after the events up to offset 1264. -/
def midTransaction : BinlogFile where
  format := ⟨252, true⟩
  ordinary := [⟨1008, true⟩, ⟨68, false⟩, ⟨53, false⟩, ⟨43, false⟩, ⟨31, true⟩]
  rotate := some ⟨44, false⟩
  sized := by decide
  small := by decide

/-- The table map of that statement was counted on to 1637, and leaves with 1385. -/
theorem midTransaction_tableMap :
    let served : Served :=
      ⟨FileEvent.sent ⟨53, false⟩ (midTransaction.offset 4) .other, some 1385, false⟩
    ∃ s : Stream, s.Reachable ∧ s.source.Serves served (.reading midTransaction 4) ∧
      Leaves served (s.receive served (.reading midTransaction 4)).1.genuine
        (s.receive served (.reading midTransaction 4)).2.1
        (s.receive served (.reading midTransaction 4)).2.2 ∧
      (fill s.last served.event).header.logPos = 1637 ∧
      (s.receive served (.reading midTransaction 4)).2.1.header.logPos = 1385 := by
  have connected := Stream.Reachable.init.receive (.connect .idle midTransaction 2)
  have described := connected.receive (.describe midTransaction 1)
  have annotated := described.receive (.next midTransaction 1 ⟨68, false⟩ rfl)
  have serves := Server.Serves.next midTransaction 2 ⟨53, false⟩ rfl
  exact ⟨_, annotated, serves, annotated.leaves serves, by decide, by decide⟩

/-- The format description sent again leaves with 1516, counted from the place of the resume;
it ends at 256. A rotate without a position right after it keeps the excess as well. -/
theorem midTransaction_resent :
    let format : Served :=
      ⟨⟨⟨false, 252, 0⟩, .formatDescription⟩, some (midTransaction.offset 1), true⟩
    let rotate : Served :=
      ⟨FileEvent.sent ⟨44, false⟩ 1503 (.rotate 4), some 1503, false⟩
    (∃ s : Stream, s.Reachable ∧ s.source.Serves format (.reading midTransaction 2) ∧
      format.trueEnd = some 256 ∧
      (s.receive format (.reading midTransaction 2)).2.1.header.logPos = 1516) ∧
    ∃ s : Stream, s.Reachable ∧ s.source.Serves rotate .rotated ∧
      (s.receive rotate .rotated).2.1.header.logPos = 1755 := by
  refine ⟨?_, ?_⟩
  · have connected := Stream.Reachable.init.receive (.connect .idle midTransaction 2)
    exact ⟨_, connected, .describe midTransaction 1, by decide, by decide⟩
  · have connected := Stream.Reachable.init.receive (.connect .idle midTransaction 6)
    have described := connected.receive (.describe midTransaction 5)
    exact ⟨_, described, .rotate midTransaction ⟨44, false⟩ rfl, by decide⟩

end Dbtrail.Parser
