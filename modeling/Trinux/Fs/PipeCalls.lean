import Trinux.Fs.Pipe
import Trinux.Lib.Ring
import Trinux.Lib.Machine

namespace Trinux

/-!
# Reading from and writing to pipes

A call of `pipe_read` or `pipe_write` looks its descriptor up once and then works on the slot
until it has transferred everything, or there is nothing more to expect.  Where it has to wait it
lets other callers run.

A step of the system is one pass of the loop of one call.  The kernel changes from one caller to
another only in the passes that wait, so its interleavings are among those of the system.
-/

def pipeBufSize : Nat := 4096

namespace Pipe

/-- Take one byte out of the ring: the body of the inner loop of `pipe_read`. -/
def takeByte (p : Pipe) : UInt8 × Pipe :=
  (p.buf p.head.toNat, { p with head := (p.head + 1) &&& 4095, used := p.used - 1 })

def takeBytes : Nat → Pipe → List UInt8 × Pipe
  | 0, p => ([], p)
  | n + 1, p =>
      let rest := takeBytes n p.takeByte.2
      (p.takeByte.1 :: rest.1, rest.2)

def putByte (p : Pipe) (byte : UInt8) : Pipe :=
  { p with
    buf := Function.update p.buf p.tail.toNat byte
    tail := (p.tail + 1) &&& 4095
    used := p.used + 1 }

def putBytes (p : Pipe) (bytes : List UInt8) : Pipe := bytes.foldl putByte p

end Pipe

/-- How a pass of a loop ends: with another one to come, waiting for others, at the end of the
file, or with the return of the call. -/
inductive Progress where
  | again
  | wait
  | eof
  | done
  deriving DecidableEq

/-- A pass of the loop of `pipe_read` that has got some of the bytes that it was asked for, with
the bytes that it takes. -/
def Pipe.readPass (p : Pipe) (len got : Nat) : Progress × List UInt8 × Pipe :=
  if got < len then
    if p.used = 0 then (if p.writeClosed then .eof else .wait, [], p)
    else (.again, p.takeBytes (min p.used.toNat (len - got)))
  else (.done, [], p)

/-- A pass of the loop of `pipe_write` that has sent some of its bytes, with those that it puts. -/
def Pipe.writePass (p : Pipe) (src : List UInt8) (sent : Nat) : Progress × List UInt8 × Pipe :=
  if sent < src.length then
    if p.used = UInt32.ofNat pipeBufSize then (if p.readClosed then .done else .wait, [], p)
    else
      let chunk := (src.drop sent).take (min (src.length - sent) (4096 - p.used).toNat)
      (.again, chunk, p.putBytes chunk)
  else (.done, [], p)

/-- What a call wants: a number of bytes, of which it got some, or the sending of bytes, of which
it sent some. -/
inductive Transfer where
  | read (len got : Nat)
  | write (src : List UInt8) (sent : Nat)
  deriving DecidableEq

/-- A call that has not returned.  Which of the pipes that were made in its slot it was made on is
recorded beside it. -/
structure PipeCall where
  slot : Nat
  generation : Nat
  transfer : Transfer
  deriving DecidableEq

/-- The tables, the calls that have not returned, and a record of the run: how many pipes were made
in a slot, and the bytes that went into and came out of the last of them. -/
structure PipeSystem where
  table : PipeTable
  calls : Nat → Option PipeCall
  generation : Nat → Nat
  accepted : Nat → List UInt8
  returned : Nat → List UInt8

/-- What happens to pipes.  Callers are known by numbers, and a caller makes one call at a time. -/
inductive PipeEvent where
  | create
  | read (caller : Nat) (fd : Int) (len : Nat)
  | write (caller : Nat) (fd : Int) (src : List UInt8)
  | pass (caller : Nat)
  | close (fd : Int)
  | exit (caller : Nat)

namespace PipeTable

def freeSlot (t : PipeTable) : Option Nat :=
  (List.range pipeMaxOpen).find? fun slot => !t.inUse slot

theorem create_of_freeSlot {t : PipeTable} {slot : Nat} (free : t.freeSlot = some slot) :
    t.create = some ((pipeFdBase + slot * pipeFdStride, pipeFdBase + slot * pipeFdStride + 1),
      t.put slot { Pipe.zero with refcount := 2 } true) := by
  rw [create]
  exact congrArg (Option.map _) free

def readSlot (t : PipeTable) (fd : Int) : Option Nat :=
  (fdToSlot fd).filter fun slot => t.inUse slot ∧ t.fdType fd = .pipeR

def writeSlot (t : PipeTable) (fd : Int) : Option Nat :=
  (fdToSlot fd).filter fun slot =>
    t.inUse slot ∧ t.fdType fd = .pipeW ∧ (t.pipes slot).readClosed = false

end PipeTable

namespace PipeSystem

def init (behind : Nat → Bool) : PipeSystem where
  table := ⟨fun _ => Pipe.zero, fun slot => if slot < pipeMaxOpen then false else behind slot⟩
  calls := fun _ => none
  generation := fun _ => 0
  accepted := fun _ => []
  returned := fun _ => []

def create (s : PipeSystem) : PipeSystem :=
  match s.table.freeSlot, s.table.create with
  | some slot, some (_, table) =>
      { s with
        table := table
        generation := Function.update s.generation slot (s.generation slot + 1)
        accepted := Function.update s.accepted slot []
        returned := Function.update s.returned slot [] }
  | _, _ => s

def begin (s : PipeSystem) (caller : Nat) (slot : Option Nat) (transfer : Transfer) : PipeSystem :=
  match s.calls caller, slot with
  | none, some slot =>
      { s with
        calls := Function.update s.calls caller (some ⟨slot, s.generation slot, transfer⟩) }
  | _, _ => s

def passOf (s : PipeSystem) (call : PipeCall) : Progress × List UInt8 × Pipe :=
  match call.transfer with
  | .read len got => (s.table.pipes call.slot).readPass len got
  | .write src sent => (s.table.pipes call.slot).writePass src sent

def Transfer.advance (moved : Nat) : Transfer → Transfer
  | .read len got => .read len (got + moved)
  | .write src sent => .write src (sent + moved)

def PipeCall.next (call : PipeCall) (progress : Progress) (moved : Nat) : Option PipeCall :=
  match progress with
  | .again => some { call with transfer := Transfer.advance moved call.transfer }
  | .wait => some call
  | .eof => none
  | .done => none

def pass (s : PipeSystem) (caller : Nat) : PipeSystem :=
  match s.calls caller with
  | none => s
  | some call =>
      let (progress, moved, pipe) := s.passOf call
      { s with
        table := s.table.put call.slot pipe (s.table.inUse call.slot)
        calls := Function.update s.calls caller (PipeCall.next call progress moved.length)
        accepted := match call.transfer with
          | .read _ _ => s.accepted
          | .write _ _ => Function.update s.accepted call.slot (s.accepted call.slot ++ moved)
        returned := match call.transfer with
          | .read _ _ => Function.update s.returned call.slot (s.returned call.slot ++ moved)
          | .write _ _ => s.returned }

def close (s : PipeSystem) (fd : Int) : PipeSystem :=
  match fdToSlot fd with
  | none => s
  | some slot =>
      if s.table.inUse slot = true ∧ (s.table.close fd).inUse slot = false then
        { s with
          table := s.table.close fd
          accepted := Function.update s.accepted slot []
          returned := Function.update s.returned slot [] }
      else { s with table := s.table.close fd }

def closePipes (s : PipeSystem) : Nat → PipeSystem
  | 0 => s
  | n + 1 =>
      let earlier := s.closePipes n
      if earlier.table.isPipe (pipeFdBase + n) then earlier.close (pipeFdBase + n) else earlier

/-- `process_exit`.  The pipes are closed whoever holds them, and a process that ends makes no call
any more. -/
def exit (s : PipeSystem) (caller : Nat) : PipeSystem :=
  let closed := s.closePipes 32
  { closed with calls := Function.update closed.calls caller none }

def step (s : PipeSystem) : PipeEvent → PipeSystem
  | .create => s.create
  | .read caller fd len => s.begin caller (s.table.readSlot fd) (.read len 0)
  | .write caller fd src => s.begin caller (s.table.writeSlot fd) (.write src 0)
  | .pass caller => s.pass caller
  | .close fd => s.close fd
  | .exit caller => s.exit caller

def run (s : PipeSystem) (events : List PipeEvent) : PipeSystem := Machine.after step s events

/-- What is promised of the pipe in a slot: the bytes come out in the order in which they went in,
`used` is the distance from `head` to `tail` and at most the size of the buffer, and a call that
finds the end of the file has everything that went in behind it. -/
structure Fifo (s : PipeSystem) (slot : Nat) : Prop where
  order : s.returned slot <+: s.accepted slot
  bounded : (s.table.pipes slot).used.toNat ≤ pipeBufSize
  distance : ((s.table.pipes slot).head.toNat + (s.table.pipes slot).used.toNat) % pipeBufSize =
    (s.table.pipes slot).tail.toNat
  ended : ∀ caller call len got, s.calls caller = some call → call.slot = slot →
    call.transfer = .read len got → (s.passOf call).1 = .eof → s.returned slot = s.accepted slot

end PipeSystem

/-! ## The ring of a pipe -/

namespace Pipe

structure Holds (p : Pipe) (waiting : List UInt8) : Prop where
  ring : Ring.Holds pipeBufSize p.buf p.head.toNat waiting
  tail : p.tail.toNat = (p.head.toNat + waiting.length) % pipeBufSize
  used : p.used.toNat = waiting.length

theorem zero_holds : Pipe.zero.Holds [] :=
  ⟨Ring.Holds.nil (by decide), by decide, rfl⟩

theorem next_toNat {position : UInt32} (inside : position.toNat < pipeBufSize) :
    ((position + 1) &&& 4095).toNat = (position.toNat + 1) % pipeBufSize := by
  have sum : (position + 1).toNat = position.toNat + 1 := by
    rw [UInt32.toNat_add]
    exact Nat.mod_eq_of_lt (by rw [pipeBufSize] at inside; simp; omega)
  rw [UInt32.toNat_and, sum]
  exact Nat.and_two_pow_sub_one_eq_mod (position.toNat + 1) 12

variable {p : Pipe} {waiting : List UInt8}

theorem Holds.tail_lt (holds : p.Holds waiting) : p.tail.toNat < pipeBufSize := by
  rw [holds.tail]
  exact Nat.mod_lt _ (by decide)

theorem Holds.takeByte {byte : UInt8} (holds : p.Holds (byte :: waiting)) :
    p.takeByte.1 = byte ∧ p.takeByte.2.Holds waiting := by
  have popped := holds.ring.pop
  have head := next_toNat holds.ring.start
  refine ⟨popped.1, ?_, ?_, ?_⟩
  · rw [Pipe.takeByte, head]
    exact popped.2
  · have tail := holds.tail
    rw [List.length_cons] at tail
    rw [Pipe.takeByte, head, Nat.mod_add_mod, tail, Nat.add_assoc, Nat.add_comm 1]
  · have used := holds.used
    rw [List.length_cons] at used
    rw [Pipe.takeByte, UInt32.toNat_sub_of_le _ _ (by rw [UInt32.le_iff_toNat_le]; simp; omega), used]
    simp

theorem Holds.takeBytes (n : Nat) (holds : p.Holds waiting) (enough : n ≤ waiting.length) :
    (p.takeBytes n).1 = waiting.take n ∧ (p.takeBytes n).2.Holds (waiting.drop n) := by
  induction n generalizing p waiting with
  | zero => exact ⟨rfl, holds⟩
  | succ n known =>
      cases waiting with
      | nil => exact absurd enough (Nat.not_succ_le_zero n)
      | cons byte rest =>
          have one := holds.takeByte
          have others := known one.2 (Nat.le_of_succ_le_succ enough)
          constructor
          · rw [Pipe.takeBytes, List.take_succ_cons, one.1, others.1]
          · exact others.2

theorem Holds.putByte (holds : p.Holds waiting) (room : waiting.length < pipeBufSize)
    (byte : UInt8) : (p.putByte byte).Holds (waiting ++ [byte]) := by
  refine ⟨?_, ?_, ?_⟩
  · rw [Pipe.putByte, holds.tail]
    exact holds.ring.push room byte
  · rw [Pipe.putByte, next_toNat holds.tail_lt, holds.tail, Nat.mod_add_mod, List.length_append,
      List.length_singleton, Nat.add_assoc]
  · rw [Pipe.putByte, UInt32.toNat_add, holds.used, List.length_append, List.length_singleton]
    exact Nat.mod_eq_of_lt (by rw [pipeBufSize] at room; simp; omega)

theorem Holds.putBytes (bytes : List UInt8) (holds : p.Holds waiting)
    (room : waiting.length + bytes.length ≤ pipeBufSize) :
    (p.putBytes bytes).Holds (waiting ++ bytes) := by
  induction bytes generalizing p waiting with
  | nil =>
      rw [List.append_nil]
      exact holds
  | cons byte rest known =>
      rw [List.length_cons] at room
      have first := holds.putByte (by omega) byte
      have others := known first (by rw [List.length_append, List.length_singleton]; omega)
      rw [List.append_assoc, List.singleton_append] at others
      exact others

end Pipe

end Trinux
