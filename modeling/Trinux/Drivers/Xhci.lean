import Trinux.Lib.CycleRing

namespace Trinux

open CycleRing

/-!
# Rings of the xHCI driver

The driver hands commands and transfers to the controller through rings that end in a link to their
beginning, and takes the events of the controller from a ring without a link.  On both kinds of
ring the cycle bit of a slot tells whether the slot is new.
-/

namespace Xhci

/-! ## `xhci_trb_t` -/

structure Trb where
  paramLo : UInt32
  paramHi : UInt32
  status : UInt32
  control : UInt32
  deriving DecidableEq, Inhabited

def cmdRingSize : Nat := 32

def evtRingSize : Nat := 64

def xferRingSize : Nat := 64

def trbNormal : UInt32 := 1

def trbSetupStage : UInt32 := 2

def trbDataStage : UInt32 := 3

def trbStatusStage : UInt32 := 4

def trbLink : UInt32 := 6

def trbCmdCompletion : UInt32 := 33

def trbPortStatusChange : UInt32 := 34

def trbIoc : UInt32 := 0x20

def trbIdt : UInt32 := 0x40

def trbCcSuccess : UInt32 := 1

def trbCcShort : UInt32 := 13

namespace Trb

def cycleBit (t : Trb) : Bool := t.control &&& 1 == 1

def type (t : Trb) : UInt32 := (t.control >>> 10) &&& 0x3F

def cc (t : Trb) : UInt32 := (t.status >>> 24) &&& 0xFF

def body (t : Trb) : Trb := { t with control := t.control &&& ~~~1 }

def withCycle (t : Trb) (cycle : UInt32) : Trb :=
  { t with control := (t.control &&& ~~~1) ||| (cycle &&& 1) }

end Trb

def cycleWord (bit : Bool) : UInt32 := if bit then 1 else 0

theorem or_and (a b c : UInt32) : (a ||| b) &&& c = (a &&& c) ||| (b &&& c) := by
  apply UInt32.toBitVec_inj.mp
  exact BitVec.and_or_distrib_right

theorem cycleWord_flip (bit : Bool) : cycleWord bit ^^^ 1 = cycleWord !bit := by
  cases bit <;> rfl

@[simp] theorem cycleBit_withCycle (t : Trb) (bit : Bool) :
    (t.withCycle (cycleWord bit)).cycleBit = bit := by
  have cleared : (~~~1 : UInt32) &&& 1 = 0 := by decide
  have word : (t.withCycle (cycleWord bit)).control &&& 1 = cycleWord bit &&& 1 := by
    rw [Trb.withCycle, or_and, UInt32.and_assoc, cleared, UInt32.and_zero, UInt32.zero_or,
      UInt32.and_assoc, UInt32.and_self]
  rw [Trb.cycleBit, word]
  cases bit <;> rfl

@[simp] theorem body_withCycle (t : Trb) (cycle : UInt32) : (t.withCycle cycle).body = t.body := by
  have cleared : (1 : UInt32) &&& ~~~1 = 0 := by decide
  rw [Trb.body, Trb.body, Trb.withCycle, or_and, UInt32.and_assoc, UInt32.and_self,
    UInt32.and_assoc, cleared, UInt32.and_zero, UInt32.or_zero]

@[simp] theorem type_body (t : Trb) : t.body.type = t.type := by
  have kept : ((~~~1 : UInt32) >>> 10) &&& 0x3F = 0x3F := by decide
  rw [Trb.type, Trb.type, Trb.body, UInt32.shiftRight_and, UInt32.and_assoc, kept]

theorem type_eq_of_body {t u : Trb} (same : t.body = u.body) : t.type = u.type := by
  rw [← type_body t, same, type_body]

/-! ## rings with a link -/

structure TrbRing where
  trbs : Nat → Trb
  enq : Nat
  cycle : UInt32

def TrbRing.alloc : TrbRing := ⟨fun _ => ⟨0, 0, 0, 0⟩, 0, 1⟩

def linkTrb (base cycle : UInt32) : Trb := ⟨base, 0, 0, (trbLink <<< 10) ||| 2 ||| (cycle &&& 1)⟩

def ringEnqueue (base : UInt32) (ringSize : Nat) (r : TrbRing) (trb : Trb) : TrbRing :=
  let trbs := Function.update r.trbs r.enq (trb.withCycle r.cycle)
  let enq := r.enq + 1
  if ringSize - 1 ≤ enq then
    ⟨Function.update trbs enq (linkTrb base r.cycle), 0, r.cycle ^^^ 1⟩
  else
    ⟨trbs, enq, r.cycle⟩

structure Consumer where
  deq : Nat
  ccs : Bool
  deriving DecidableEq

/-- The consumer looks at its slot.  It follows a link and inverts its cycle state when the link
says so. -/
def Consumer.fetch (base : UInt32) (trbs : Nat → Trb) (c : Consumer) : Option Trb × Consumer :=
  let trb := trbs c.deq
  if trb.cycleBit ≠ c.ccs then (none, c)
  else if trb.type = trbLink then
    (none, ⟨(trb.paramLo - base).toNat / 16, c.ccs ^^ (trb.control &&& 2 == 2)⟩)
  else (some trb, ⟨c.deq + 1, c.ccs⟩)

/-- A ring in use: what the driver has put into it and what the consumer has taken. -/
structure RingUse where
  ring : TrbRing
  consumer : Consumer
  sent : List Trb
  seen : List Trb

inductive RingAction where
  | enqueue (trb : Trb)
  | fetch

namespace RingUse

def start : RingUse := ⟨TrbRing.alloc, ⟨0, true⟩, [], []⟩

variable (base : UInt32) (ringSize : Nat)

def step (s : RingUse) : RingAction → RingUse
  | .enqueue trb =>
      { s with ring := ringEnqueue base ringSize s.ring trb, sent := s.sent ++ [trb.body] }
  | .fetch =>
      let (trb, consumer) := s.consumer.fetch base s.ring.trbs
      { s with consumer := consumer, seen := s.seen ++ (trb.map Trb.body).toList }

/-- The consumer is never a full ring behind.  The TRBs of the driver are not links. -/
def Keeps (s : RingUse) : RingAction → Prop
  | .enqueue trb => trb.type ≠ trbLink ∧ s.sent.length + 1 < s.seen.length + (ringSize - 1)
  | .fetch => True

def run (s : RingUse) (actions : List RingAction) : RingUse :=
  actions.foldl (step base ringSize) s

def KeepsUp : RingUse → List RingAction → Prop
  | _, [] => True
  | s, action :: rest => s.Keeps ringSize action ∧ KeepsUp (s.step base ringSize action) rest

end RingUse

/-! ## the producer -/

def slots (trbs : Nat → Trb) (i : Nat) : Bool × Trb := ((trbs i).cycleBit, (trbs i).body)

theorem slots_update (trbs : Nat → Trb) (i : Nat) (trb : Trb) :
    slots (Function.update trbs i trb) =
      Function.update (slots trbs) i (trb.cycleBit, trb.body) := by
  funext j
  unfold slots
  by_cases same : j = i
  · subst same
    rw [Function.update_self, Function.update_self]
  · rw [Function.update_of_ne same, Function.update_of_ne same]

/-- The ring after a number of TRBs: the driver's place, its cycle state, the slots and the link
that the last complete round has left. -/
structure Produced (base : UInt32) (ringSize : Nat) (r : TrbRing) (sent : List Trb) : Prop where
  enq : r.enq = sent.length % (ringSize - 1)
  cycle : r.cycle = cycleWord (lapBit (sent.length / (ringSize - 1)))
  laps : Laps (ringSize - 1) (slots r.trbs) sent
  link : ∀ lap, lap + 1 = sent.length / (ringSize - 1) →
    r.trbs (ringSize - 1) = linkTrb base (cycleWord (lapBit lap))
  plain : ∀ trb ∈ sent, trb.type ≠ trbLink

theorem Produced.alloc {base : UInt32} {ringSize : Nat} :
    Produced base ringSize TrbRing.alloc [] where
  enq := (Nat.zero_mod _).symm
  cycle := by
    rw [List.length_nil, Nat.zero_div]
    rfl
  laps := by
    have clear : (⟨0, 0, 0, 0⟩ : Trb).cycleBit = false := by decide
    exact Laps.nil fun _ _ => clear
  link := by
    intro lap same
    rw [List.length_nil, Nat.zero_div] at same
    exact absurd same (Nat.succ_ne_zero lap)
  plain := fun _ member => absurd member List.not_mem_nil

section Producer

variable {base : UInt32} {ringSize : Nat} {r : TrbRing} {sent : List Trb}

theorem Produced.write (produced : Produced base ringSize r sent) (trb : Trb) :
    Laps (ringSize - 1) (slots (Function.update r.trbs r.enq (trb.withCycle r.cycle)))
      (sent ++ [trb.body]) := by
  rw [slots_update, body_withCycle, produced.cycle, cycleBit_withCycle, produced.enq]
  exact produced.laps.push trb.body

/-- `ring_enqueue` sends one more TRB, whatever its place. -/
theorem Produced.enqueue (produced : Produced base ringSize r sent) (room : 2 ≤ ringSize)
    {trb : Trb} (plain : trb.type ≠ trbLink) :
    Produced base ringSize (ringEnqueue base ringSize r trb) (sent ++ [trb.body]) := by
  have positive : 0 < ringSize - 1 := Nat.sub_pos_of_lt room
  have below := Nat.mod_lt sent.length positive
  have written := produced.write trb
  have count : (sent ++ [trb.body]).length = sent.length + 1 := by
    rw [List.length_append, List.length_singleton]
  have types : ∀ t ∈ sent ++ [trb.body], t.type ≠ trbLink := by
    intro t member
    rcases List.mem_append.mp member with earlier | last
    · exact produced.plain t earlier
    · rw [List.mem_singleton.mp last, type_body]
      exact plain
  unfold ringEnqueue
  by_cases around : ringSize - 1 ≤ r.enq + 1
  · rw [if_pos around]
    rw [produced.enq] at around
    have next := next_around (Nat.le_antisymm below around)
    constructor
    · rw [count, next.1]
    · change r.cycle ^^^ 1 = _
      rw [count, next.2, produced.cycle, cycleWord_flip, lapBit_succ]
    · apply written.congr positive
      intro i inside
      have last : r.enq + 1 = ringSize - 1 := by
        rw [produced.enq]
        exact Nat.le_antisymm below around
      unfold slots
      dsimp only
      rw [last, Function.update_of_ne (Nat.ne_of_lt inside)]
    · intro lap same
      have last : r.enq + 1 = ringSize - 1 := by
        rw [produced.enq]
        exact Nat.le_antisymm below around
      rw [count, next.2] at same
      dsimp only
      rw [last, Function.update_self, produced.cycle, Nat.succ.inj same]
    · exact types
  · rw [if_neg around]
    have inside : sent.length % (ringSize - 1) + 1 < ringSize - 1 := by
      rw [← produced.enq]
      exact Nat.lt_of_not_le around
    have next := next_inside inside
    constructor
    · rw [count, next.1, ← produced.enq]
    · rw [count, next.2]
      exact produced.cycle
    · exact written
    · intro lap same
      rw [count, next.2] at same
      have apart : ringSize - 1 ≠ r.enq := by
        rw [produced.enq]
        exact (Nat.ne_of_lt below).symm
      dsimp only
      rw [Function.update_of_ne apart]
      exact produced.link lap same
    · exact types

end Producer

/-! ## the consumer -/

/-- The places of a consumer that has taken a number of TRBs: the next slot, or the link before
it. -/
inductive Place (N m : Nat) : Consumer → Prop
  | slot : Place N m ⟨m % N, lapBit (m / N)⟩
  | link (lap : Nat) (rounds : m = N * (lap + 1)) : Place N m ⟨N, lapBit lap⟩

/-- The control word of a link: its type, the toggle bit and the cycle bit. -/
theorem control_linkTrb (base : UInt32) (bit : Bool) :
    (linkTrb base (cycleWord bit)).control = if bit then 0x1803 else 0x1802 := by
  unfold linkTrb
  dsimp only
  cases bit <;> decide

theorem cycleBit_linkTrb (base : UInt32) (bit : Bool) :
    (linkTrb base (cycleWord bit)).cycleBit = bit := by
  rw [Trb.cycleBit, control_linkTrb]
  cases bit <;> decide

theorem type_linkTrb (base : UInt32) (bit : Bool) :
    (linkTrb base (cycleWord bit)).type = trbLink := by
  rw [Trb.type, control_linkTrb]
  cases bit <;> decide

/-- Following the link leads to the beginning of the ring and inverts the cycle state. -/
theorem fetch_link {base : UInt32} {trbs : Nat → Trb} {N : Nat} {bit : Bool}
    (linked : trbs N = linkTrb base (cycleWord bit)) :
    Consumer.fetch base trbs ⟨N, bit⟩ = (none, ⟨0, !bit⟩) := by
  have toggles : ((linkTrb base (cycleWord bit)).control &&& 2 == 2) = true := by
    rw [control_linkTrb]
    cases bit <;> decide
  have back : ((linkTrb base (cycleWord bit)).paramLo - base).toNat / 16 = 0 := by
    change (base - base).toNat / 16 = 0
    rw [UInt32.sub_self]
    rfl
  unfold Consumer.fetch
  dsimp only
  rw [linked, cycleBit_linkTrb, type_linkTrb, if_neg (not_not_intro rfl), if_pos rfl, back, toggles,
    Bool.xor_true]

theorem fetch_empty {base : UInt32} {trbs : Nat → Trb} {c : Consumer}
    (other : (trbs c.deq).cycleBit ≠ c.ccs) : c.fetch base trbs = (none, c) := by
  unfold Consumer.fetch
  dsimp only
  rw [if_pos other]

theorem fetch_trb {base : UInt32} {trbs : Nat → Trb} {c : Consumer}
    (ready : (trbs c.deq).cycleBit = c.ccs) (plain : (trbs c.deq).type ≠ trbLink) :
    c.fetch base trbs = (some (trbs c.deq), ⟨c.deq + 1, c.ccs⟩) := by
  unfold Consumer.fetch
  dsimp only
  rw [if_neg (not_not_intro ready), if_neg plain]

theorem Place.next {N m : Nat} (positive : 0 < N) :
    Place N (m + 1) ⟨m % N + 1, lapBit (m / N)⟩ := by
  by_cases inside : m % N + 1 < N
  · have next := next_inside inside
    rw [← next.1, ← next.2]
    exact Place.slot
  · have last : m % N + 1 = N :=
      Nat.le_antisymm (Nat.mod_lt m positive) (Nat.le_of_not_lt inside)
    rw [last]
    apply Place.link
    have split := Nat.div_add_mod m N
    rw [Nat.mul_add, Nat.mul_one]
    omega

namespace RingUse

structure Follows (base : UInt32) (ringSize : Nat) (s : RingUse) : Prop where
  produced : Produced base ringSize s.ring s.sent
  place : Place (ringSize - 1) s.seen.length s.consumer
  taken : s.seen <+: s.sent
  near : s.sent.length < s.seen.length + (ringSize - 1)

/-- What the consumer still has to look at: two looks for a TRB, since a link may stand before
it. -/
def left (ringSize : Nat) (s : RingUse) : Nat :=
  2 * (s.sent.length - s.seen.length) + if s.consumer.deq = ringSize - 1 then 1 else 0

section

variable {base : UInt32} {ringSize : Nat} {s : RingUse}

theorem Follows.start (room : 2 ≤ ringSize) : Follows base ringSize RingUse.start where
  produced := Produced.alloc
  place := by
    have first : Place (ringSize - 1) 0 ⟨0 % (ringSize - 1), lapBit (0 / (ringSize - 1))⟩ :=
      Place.slot
    rw [Nat.zero_mod, Nat.zero_div] at first
    exact first
  taken := List.prefix_rfl
  near := by
    change 0 < 0 + (ringSize - 1)
    omega

theorem Follows.enqueue (follows : Follows base ringSize s) (room : 2 ≤ ringSize) {trb : Trb}
    (keeps : s.Keeps ringSize (.enqueue trb)) :
    Follows base ringSize (s.step base ringSize (.enqueue trb)) where
  produced := follows.produced.enqueue room keeps.1
  place := follows.place
  taken := follows.taken.trans (List.prefix_append _ _)
  near := by
    change (s.sent ++ [trb.body]).length < _
    rw [List.length_append, List.length_singleton]
    exact keeps.2

theorem step_fetch {found : Option Trb} {next : Consumer}
    (fetched : s.consumer.fetch base s.ring.trbs = (found, next)) :
    s.step base ringSize .fetch =
      ⟨s.ring, next, s.sent, s.seen ++ (found.map Trb.body).toList⟩ := by
  unfold step
  dsimp only
  rw [fetched]

theorem taken_next {seen sent : List Trb} (taken : seen <+: sent)
    (waiting : seen.length < sent.length) : seen ++ [sent[seen.length]] <+: sent := by
  rw [List.prefix_iff_eq_take, List.length_append, List.length_singleton,
    List.take_add_one, List.getElem?_eq_getElem waiting, Option.toList_some,
    ← List.prefix_iff_eq_take.mp taken]

/-- At the slot of a TRB that the driver has sent, the consumer takes it. -/
theorem Follows.take (follows : Follows base ringSize s)
    (at_slot : s.consumer =
      ⟨s.seen.length % (ringSize - 1), lapBit (s.seen.length / (ringSize - 1))⟩)
    (waiting : s.seen.length < s.sent.length) :
    s.step base ringSize .fetch =
      ⟨s.ring, ⟨s.seen.length % (ringSize - 1) + 1, lapBit (s.seen.length / (ringSize - 1))⟩,
        s.sent, s.seen ++ [s.sent[s.seen.length]]⟩ := by
  have slot := follows.produced.laps.owned waiting follows.near.le
  have ready := congrArg Prod.fst slot
  have content := congrArg Prod.snd slot
  dsimp only [slots] at ready content
  have plain : (s.ring.trbs (s.seen.length % (ringSize - 1))).type ≠ trbLink := by
    rw [← type_body, content]
    exact follows.produced.plain _ (List.getElem_mem waiting)
  have fetched : s.consumer.fetch base s.ring.trbs =
      (some (s.ring.trbs s.consumer.deq), ⟨s.consumer.deq + 1, s.consumer.ccs⟩) := by
    apply fetch_trb
    · rw [at_slot]
      exact ready
    · rw [at_slot]
      exact plain
  rw [step_fetch fetched, at_slot, Option.map_some, content, Option.toList_some]

/-- At the slot of a TRB that the driver has not sent yet, the consumer stays. -/
theorem Follows.wait (follows : Follows base ringSize s) (positive : 0 < ringSize - 1)
    (at_slot : s.consumer =
      ⟨s.seen.length % (ringSize - 1), lapBit (s.seen.length / (ringSize - 1))⟩)
    (all : s.sent.length = s.seen.length) : s.step base ringSize .fetch = s := by
  have other := follows.produced.laps.empty positive
  rw [all] at other
  have fetched : s.consumer.fetch base s.ring.trbs = (none, s.consumer) := by
    apply fetch_empty
    rw [at_slot]
    exact other
  rw [step_fetch fetched, Option.map_none, Option.toList_none, List.append_nil]

theorem Follows.turn (follows : Follows base ringSize s) {lap : Nat}
    (rounds : s.seen.length = (ringSize - 1) * (lap + 1))
    (at_link : s.consumer = ⟨ringSize - 1, lapBit lap⟩) :
    s.step base ringSize .fetch = ⟨s.ring, ⟨0, !lapBit lap⟩, s.sent, s.seen⟩ := by
  have reached : s.sent.length / (ringSize - 1) = lap + 1 := by
    have lower := follows.taken.length_le
    have upper := follows.near
    apply Nat.div_eq_of_lt_le
    · rw [Nat.mul_comm, ← rounds]
      exact lower
    · rw [Nat.succ_mul, Nat.mul_comm, ← rounds]
      exact upper
  have fetched := fetch_link (follows.produced.link lap reached.symm)
  rw [← at_link] at fetched
  rw [step_fetch fetched, Option.map_none, Option.toList_none, List.append_nil]

/-- A look of the consumer takes the next TRB, follows the link or finds nothing new; it keeps to
the order and comes nearer to the driver. -/
theorem Follows.fetch (follows : Follows base ringSize s) (room : 2 ≤ ringSize) :
    Follows base ringSize (s.step base ringSize .fetch) ∧
      (s.step base ringSize .fetch).left ringSize ≤ s.left ringSize - 1 := by
  have positive : 0 < ringSize - 1 := Nat.sub_pos_of_lt room
  have inside := Nat.mod_lt s.seen.length positive
  have near := follows.near
  have place := follows.place
  generalize standing : s.consumer = c at place
  cases place with
  | slot =>
      by_cases waiting : s.seen.length < s.sent.length
      · have count : (s.seen ++ [s.sent[s.seen.length]]).length = s.seen.length + 1 := by
          rw [List.length_append, List.length_singleton]
        rw [follows.take standing waiting]
        constructor
        · constructor
          · exact follows.produced
          · dsimp only
            rw [count]
            exact Place.next positive
          · exact taken_next follows.taken waiting
          · dsimp only
            rw [count]
            omega
        · unfold left
          dsimp only
          rw [count]
          split <;> omega
      · have all : s.sent.length = s.seen.length :=
          Nat.le_antisymm (Nat.le_of_not_lt waiting) follows.taken.length_le
        rw [follows.wait positive standing all]
        constructor
        · exact follows
        · unfold left
          rw [standing, if_neg (Nat.ne_of_lt inside)]
          omega
  | link lap rounds =>
      rw [follows.turn rounds standing]
      constructor
      · constructor
        · exact follows.produced
        · have next : Place (ringSize - 1) s.seen.length
              ⟨s.seen.length % (ringSize - 1), lapBit (s.seen.length / (ringSize - 1))⟩ := Place.slot
          rw [rounds, Nat.mul_mod_right, Nat.mul_div_cancel_left _ positive, lapBit_succ,
            ← rounds] at next
          exact next
        · exact follows.taken
        · exact near
      · unfold left
        rw [standing, if_pos rfl, if_neg (Nat.ne_of_lt positive)]
        dsimp only
        omega

theorem Follows.run (follows : Follows base ringSize s) (room : 2 ≤ ringSize)
    (actions : List RingAction) (keeps : KeepsUp base ringSize s actions) :
    Follows base ringSize (s.run base ringSize actions) := by
  induction actions generalizing s with
  | nil => exact follows
  | cons action rest ih =>
      cases action with
      | enqueue trb => exact ih (follows.enqueue room keeps.1) keeps.2
      | fetch => exact ih (follows.fetch room).1 keeps.2

theorem Follows.drain (follows : Follows base ringSize s) (room : 2 ≤ ringSize) (looks : Nat)
    (enough : s.left ringSize ≤ looks) :
    (s.run base ringSize (List.replicate looks .fetch)).seen = s.sent := by
  induction looks generalizing s with
  | zero =>
      have none : s.sent.length - s.seen.length = 0 := by
        unfold left at enough
        omega
      exact follows.taken.eq_of_length
        (Nat.le_antisymm follows.taken.length_le (Nat.sub_eq_zero_iff_le.mp none))
  | succ looks ih =>
      have stepped := follows.fetch room
      exact ih stepped.1 (stepped.2.trans (Nat.sub_le_of_le_add enough))

def enqueued : List RingAction → List Trb
  | [] => []
  | .enqueue trb :: rest => trb :: enqueued rest
  | .fetch :: rest => enqueued rest

theorem run_sent (actions : List RingAction) :
    (s.run base ringSize actions).sent = s.sent ++ (enqueued actions).map Trb.body := by
  induction actions generalizing s with
  | nil => exact (List.append_nil _).symm
  | cons action rest ih =>
      unfold run at ih ⊢
      rw [List.foldl_cons, ih]
      cases action with
      | enqueue trb =>
          rw [enqueued, List.map_cons]
          exact List.append_assoc s.sent [trb.body] _
      | fetch =>
          rw [enqueued]
          rfl

end

end RingUse

/-! ## the event ring -/

/-- An event of the controller and the number of the request that it completes, if it completes
one. -/
structure Posting where
  evt : Trb
  completes : Option Nat
  deriving DecidableEq

/-- The event ring with the places of the controller and of the driver, the ERDP register and the
events posted. -/
structure EventRing where
  trbs : Nat → Trb
  enqueue : Nat
  pcs : Bool
  dequeue : Nat
  cycle : UInt32
  erdp : UInt32
  posted : List Posting

namespace EventRing

variable (base : UInt32)

def init : EventRing := ⟨fun _ => ⟨0, 0, 0, 0⟩, 0, true, 0, 1, base, []⟩

def erdpSlot (s : EventRing) : Nat := (s.erdp - base).toNat / 16

/-- A conforming controller posts an event when the next slot is not the driver's. -/
def post (s : EventRing) (p : Posting) : EventRing :=
  if (s.enqueue + 1) % evtRingSize = s.erdpSlot base then s
  else
    { s with
      trbs := Function.update s.trbs s.enqueue (p.evt.withCycle (cycleWord s.pcs))
      enqueue := (s.enqueue + 1) % evtRingSize
      pcs := if s.enqueue + 1 = evtRingSize then !s.pcs else s.pcs
      posted := s.posted ++ [p] }

def look (s : EventRing) : Option (Trb × EventRing) :=
  let evt := s.trbs s.dequeue
  if evt.control &&& 1 = s.cycle &&& 1 then
    let wraps := evtRingSize ≤ s.dequeue + 1
    let dequeue := if wraps then 0 else s.dequeue + 1
    some (evt,
      { s with
        dequeue := dequeue
        cycle := if wraps then s.cycle ^^^ 1 else s.cycle
        erdp := (base + UInt32.ofNat (16 * dequeue)) ||| 8 })
  else none

end EventRing

/-- `poll_event`, with the events that the controller posts before each look. -/
def pollEvent (base : UInt32) :
    (iterations : Nat) → (arrivals : Nat → List Posting) → EventRing → Option Trb × EventRing
  | 0, _, s => (none, s)
  | left + 1, arrivals, s =>
      let s := (arrivals 0).foldl (EventRing.post base) s
      match s.look base with
      | some (evt, s) => (some evt, s)
      | none => pollEvent base left (fun i => arrivals (i + 1)) s

structure Poll where
  iterations : Nat
  arrivals : Nat → List Posting

def pollAll (base : UInt32) : List Poll → EventRing → List Trb × EventRing
  | [], s => ([], s)
  | call :: rest, s =>
      let (evt, s) := pollEvent base call.iterations call.arrivals s
      let (evts, s) := pollAll base rest s
      (evt.toList ++ evts, s)

namespace EventRing

def contents (s : EventRing) : List Trb := s.posted.map fun p => p.evt.body

structure Holds (base : UInt32) (s : EventRing) (taken : Nat) : Prop where
  enqueue : s.enqueue = s.contents.length % evtRingSize
  pcs : s.pcs = lapBit (s.contents.length / evtRingSize)
  dequeue : s.dequeue = taken % evtRingSize
  cycle : s.cycle = cycleWord (lapBit (taken / evtRingSize))
  erdp : s.erdpSlot base = taken % evtRingSize
  laps : Laps evtRingSize (slots s.trbs) s.contents
  below : taken ≤ s.contents.length
  near : s.contents.length < taken + evtRingSize

variable {base : UInt32} {s : EventRing} {taken : Nat}

theorem Holds.init (base : UInt32) : Holds base (EventRing.init base) 0 where
  enqueue := rfl
  pcs := by
    change true = lapBit (0 / evtRingSize)
    rw [Nat.zero_div, lapBit_zero]
  dequeue := rfl
  cycle := by
    rw [Nat.zero_div]
    rfl
  erdp := by
    change (base - base).toNat / 16 = 0
    rw [UInt32.sub_self]
    rfl
  laps := by
    have clear : (⟨0, 0, 0, 0⟩ : Trb).cycleBit = false := by decide
    exact Laps.nil fun _ _ => clear
  below := Nat.le_refl 0
  near := by
    change 0 < 0 + evtRingSize
    decide

/-- The controller finds no room exactly when all slots but one are taken. -/
theorem Holds.full_iff (holds : Holds base s taken) :
    (s.enqueue + 1) % evtRingSize = s.erdpSlot base ↔
      s.contents.length + 1 = taken + evtRingSize := by
  have below := holds.below
  have near := holds.near
  rw [holds.enqueue, holds.erdp]
  unfold evtRingSize at near ⊢
  omega

theorem Holds.post (holds : Holds base s taken) (p : Posting) :
    Holds base (s.post base p) taken := by
  have below := holds.below
  have near := holds.near
  unfold EventRing.post
  by_cases full : (s.enqueue + 1) % evtRingSize = s.erdpSlot base
  · rw [if_pos full]
    exact holds
  · rw [if_neg full]
    rw [holds.full_iff] at full
    have positive : 0 < evtRingSize := by decide
    have after : (s.posted ++ [p]).map (fun p => p.evt.body) = s.contents ++ [p.evt.body] :=
      List.map_append
    have count : ((s.posted ++ [p]).map fun p => p.evt.body).length = s.contents.length + 1 := by
      rw [after, List.length_append, List.length_singleton]
    constructor
    · change _ = ((s.posted ++ [p]).map fun p => p.evt.body).length % evtRingSize
      rw [count, holds.enqueue, Nat.mod_add_mod]
    · change _ = lapBit (((s.posted ++ [p]).map fun p => p.evt.body).length / evtRingSize)
      rw [count, next_bit _ _ positive, holds.enqueue, holds.pcs]
    · exact holds.dequeue
    · exact holds.cycle
    · exact holds.erdp
    · change Laps evtRingSize (slots (Function.update s.trbs s.enqueue _))
        ((s.posted ++ [p]).map fun p => p.evt.body)
      rw [after, slots_update, body_withCycle, cycleBit_withCycle, holds.enqueue, holds.pcs]
      exact holds.laps.push p.evt.body
    · change taken ≤ ((s.posted ++ [p]).map fun p => p.evt.body).length
      rw [count]
      exact Nat.le_succ_of_le below
    · change ((s.posted ++ [p]).map fun p => p.evt.body).length < _
      rw [count]
      exact Nat.lt_of_le_of_ne near full

theorem Holds.arrive (holds : Holds base s taken) (arrivals : List Posting) :
    Holds base (arrivals.foldl (EventRing.post base) s) taken := by
  induction arrivals generalizing s with
  | nil => exact holds
  | cons p rest ih => exact ih (holds.post p)

/-- The word that the driver writes to ERDP names its slot, whatever the EHB bit. -/
theorem erdp_slot {base : UInt32} (aligned : base.toNat % 16 = 0) {slot : Nat}
    (inside : slot < evtRingSize) :
    (((base + UInt32.ofNat (16 * slot)) ||| 8) - base).toNat / 16 = slot := by
  unfold evtRingSize at inside
  have offset : (UInt32.ofNat (16 * slot)).toNat = 16 * slot := by
    rw [UInt32.toNat_ofNat']
    omega
  have ends : (base + UInt32.ofNat (16 * slot)).toNat % 16 = 0 := by
    rw [UInt32.toNat_add, offset]
    omega
  have bit : (base + UInt32.ofNat (16 * slot)) ||| 8 = base + UInt32.ofNat (16 * slot) + 8 := by
    apply UInt32.toNat_inj.mp
    have bound := (base + UInt32.ofNat (16 * slot)).toNat_lt
    have whole := Nat.two_pow_add_eq_or_of_lt (by decide : 8 < 2 ^ 4)
      ((base + UInt32.ofNat (16 * slot)).toNat / 16)
    have parts : 2 ^ 4 * ((base + UInt32.ofNat (16 * slot)).toNat / 16) =
        (base + UInt32.ofNat (16 * slot)).toNat := Nat.mul_div_cancel' (Nat.dvd_of_mod_eq_zero ends)
    rw [parts] at whole
    rw [UInt32.toNat_or, UInt32.toNat_add _ 8]
    change _ ||| 8 = (_ + 8) % 2 ^ 32
    rw [← whole]
    omega
  have difference : base + UInt32.ofNat (16 * slot) + 8 - base = UInt32.ofNat (16 * slot) + 8 := by
    rw [UInt32.add_assoc, UInt32.add_comm base, UInt32.add_sub_cancel]
  rw [bit, difference, UInt32.toNat_add, offset]
  change (16 * slot + 8) % 2 ^ 32 / 16 = slot
  omega

theorem ready_iff (trb : Trb) (bit : Bool) :
    trb.control &&& 1 = cycleWord bit &&& 1 ↔ trb.cycleBit = bit := by
  have cases : trb.control &&& 1 = 0 ∨ trb.control &&& 1 = 1 := by
    have small : (trb.control &&& 1).toNat < 2 := by
      rw [UInt32.toNat_and]
      exact Nat.lt_succ_of_le Nat.and_le_right
    rcases Nat.lt_succ_iff_lt_or_eq.mp small with below | one
    · left
      exact UInt32.toNat_inj.mp (Nat.lt_one_iff.mp below)
    · right
      exact UInt32.toNat_inj.mp one
  unfold Trb.cycleBit
  rcases cases with zero | one
  · rw [zero]
    cases bit <;> decide
  · rw [one]
    cases bit <;> decide

/-- A look takes the first event that the driver has not taken. -/
theorem Holds.look_event (holds : Holds base s taken) (aligned : base.toNat % 16 = 0)
    (waiting : taken < s.contents.length) :
    ∃ evt after, s.look base = some (evt, after) ∧ evt.body = s.contents[taken] ∧
      after.posted = s.posted ∧ Holds base after (taken + 1) := by
  have positive : 0 < evtRingSize := by decide
  have slot := holds.laps.owned waiting holds.near.le
  have ready := congrArg Prod.fst slot
  have content := congrArg Prod.snd slot
  dsimp only [slots] at ready content
  have bits := (ready_iff (s.trbs (taken % evtRingSize)) (lapBit (taken / evtRingSize))).mpr ready
  unfold EventRing.look
  rw [holds.dequeue, holds.cycle]
  dsimp only
  rw [if_pos bits]
  refine ⟨_, _, rfl, content, rfl, ?_⟩
  have wraps : evtRingSize ≤ taken % evtRingSize + 1 ↔ taken % evtRingSize + 1 = evtRingSize :=
    ⟨fun reached => Nat.le_antisymm (Nat.mod_lt taken positive) reached, Nat.le_of_eq ∘ Eq.symm⟩
  have slot_next : (if evtRingSize ≤ taken % evtRingSize + 1 then 0 else taken % evtRingSize + 1) =
      (taken + 1) % evtRingSize := by
    rw [next_slot _ _ positive]
    exact if_congr wraps rfl rfl
  constructor
  · exact holds.enqueue
  · exact holds.pcs
  · exact slot_next
  · change (if evtRingSize ≤ taken % evtRingSize + 1 then
        cycleWord (lapBit (taken / evtRingSize)) ^^^ 1 else
        cycleWord (lapBit (taken / evtRingSize))) = _
    rw [next_bit _ _ positive, cycleWord_flip, apply_ite cycleWord]
    exact if_congr wraps rfl rfl
  · dsimp only [erdpSlot]
    rw [slot_next]
    exact erdp_slot aligned (Nat.mod_lt _ positive)
  · exact holds.laps
  · exact waiting
  · exact Nat.lt_add_right 1 holds.near |>.trans_eq (Nat.add_right_comm _ _ _)

theorem Holds.look_none (holds : Holds base s taken) (all : s.contents.length = taken) :
    s.look base = none := by
  have positive : 0 < evtRingSize := by decide
  have other := holds.laps.empty positive
  rw [all] at other
  unfold EventRing.look
  rw [holds.dequeue, holds.cycle]
  dsimp only
  rw [if_neg fun same => other ((ready_iff _ _).mp same)]

theorem contents_length (s : EventRing) : s.contents.length = s.posted.length :=
  List.length_map _

theorem post_posted (s : EventRing) (p : Posting) : s.posted <+: (s.post base p).posted := by
  unfold EventRing.post
  split
  · exact List.prefix_rfl
  · exact List.prefix_append _ _

theorem arrive_posted (s : EventRing) (arrivals : List Posting) :
    s.posted <+: (arrivals.foldl (EventRing.post base) s).posted := by
  induction arrivals generalizing s with
  | nil => exact List.prefix_rfl
  | cons p rest ih => exact (post_posted s p).trans (ih (s.post base p))

end EventRing

/-- A call of `poll_event` returns the first event that was not taken before, and nothing only if
there is none. -/
theorem pollEvent_next {base : UInt32} (aligned : base.toNat % 16 = 0) (iterations : Nat)
    (arrivals : Nat → List Posting) {s : EventRing} {taken : Nat} (holds : s.Holds base taken) :
    s.posted <+: (pollEvent base iterations arrivals s).2.posted ∧
    (pollEvent base iterations arrivals s).2.Holds base
      (taken + (pollEvent base iterations arrivals s).1.toList.length) ∧
    (0 < iterations → (pollEvent base iterations arrivals s).1.map Trb.body =
      (pollEvent base iterations arrivals s).2.contents[taken]?) := by
  induction iterations generalizing arrivals s with
  | zero => exact ⟨List.prefix_rfl, holds, fun positive => absurd positive (Nat.lt_irrefl 0)⟩
  | succ left ih =>
      have arrived := holds.arrive (arrivals 0)
      have grown : s.posted <+: ((arrivals 0).foldl (EventRing.post base) s).posted :=
        EventRing.arrive_posted s (arrivals 0)
      unfold pollEvent
      dsimp only
      generalize (arrivals 0).foldl (EventRing.post base) s = ring at arrived grown
      by_cases waiting : taken < ring.contents.length
      · rcases arrived.look_event aligned waiting with ⟨evt, after, looked, content, same, next⟩
        rw [looked]
        refine ⟨?_, next, ?_⟩
        · rw [same]
          exact grown
        · intro _
          have kept : after.contents = ring.contents := congrArg (List.map _) same
          change some evt.body = after.contents[taken]?
          rw [kept, List.getElem?_eq_getElem waiting, content]
      · have all : ring.contents.length = taken :=
          Nat.le_antisymm (Nat.le_of_not_lt waiting) arrived.below
        rw [arrived.look_none all]
        have rest := ih (fun i => arrivals (i + 1)) arrived
        refine ⟨grown.trans rest.1, rest.2.1, ?_⟩
        intro _
        cases left with
        | zero =>
            change none = ring.contents[taken]?
            exact (List.getElem?_eq_none (Nat.le_of_eq all)).symm
        | succ left => exact rest.2.2 (Nat.succ_pos left)

/-- The events that a sequence of calls returns are the next ones, in the order of posting. -/
theorem pollAll_taken {base : UInt32} (aligned : base.toNat % 16 = 0) (calls : List Poll)
    {s : EventRing} {taken : Nat} (holds : s.Holds base taken) :
    (pollAll base calls s).2.Holds base (taken + (pollAll base calls s).1.length) ∧
    s.posted <+: (pollAll base calls s).2.posted ∧
    (pollAll base calls s).1.map Trb.body =
      ((pollAll base calls s).2.contents.drop taken).take (pollAll base calls s).1.length := by
  induction calls generalizing s taken with
  | nil => exact ⟨holds, List.prefix_rfl, List.take_zero.symm⟩
  | cons call rest ih =>
      have next := pollEvent_next aligned call.iterations call.arrivals holds
      unfold pollAll
      dsimp only
      generalize polled : pollEvent base call.iterations call.arrivals s = result at next
      rcases result with ⟨evt, ring⟩
      have later := ih next.2.1
      cases evt with
      | none =>
          refine ⟨?_, next.1.trans later.2.1, ?_⟩
          · exact later.1
          · exact later.2.2
      | some evt =>
          have positive : 0 < call.iterations := by
            rcases Nat.eq_zero_or_pos call.iterations with zero | positive
            · rw [zero] at polled
              cases polled
            · exact positive
          have content : some evt.body = ring.contents[taken]? := next.2.2 positive
          have grown : ring.contents <+: (pollAll base rest ring).2.contents :=
            List.IsPrefix.map (fun p : Posting => p.evt.body) later.2.1
          rcases List.getElem?_eq_some_iff.mp content.symm with ⟨before, first⟩
          have inside : taken < (pollAll base rest ring).2.contents.length :=
            before.trans_le grown.length_le
          have same : (pollAll base rest ring).2.contents[taken] = evt.body := by
            rw [← first]
            exact (grown.getElem before).symm
          dsimp only [Option.toList_some, List.cons_append, List.nil_append, List.length_cons]
          refine ⟨?_, next.1.trans later.2.1, ?_⟩
          · have holds' := later.1
            dsimp only [Option.toList_some, List.length_cons, List.length_nil] at holds'
            rw [Nat.add_assoc, Nat.zero_add, Nat.add_comm 1] at holds'
            exact holds'
          · rw [List.map_cons, later.2.2, List.drop_eq_getElem_cons inside, same,
              List.take_succ_cons]
            rfl

/-- Both kinds of ring deliver what is put into them, each item once and in order: the consumer of a
ring with a link sees the TRBs of the driver, and `poll_event` returns the events of the
controller. -/
theorem rings_in_order {ringSize : Nat} (room : 2 ≤ ringSize) (ringBase eventBase : UInt32)
    (aligned : eventBase.toNat % 16 = 0) :
    (∀ actions, RingUse.KeepsUp ringBase ringSize RingUse.start actions →
      (RingUse.start.run ringBase ringSize actions).seen <+:
          (RingUse.enqueued actions).map Trb.body ∧
        ∀ looks, 2 * ((RingUse.enqueued actions).length -
            (RingUse.start.run ringBase ringSize actions).seen.length) + 1 ≤ looks →
          ((RingUse.start.run ringBase ringSize actions).run ringBase ringSize
            (List.replicate looks .fetch)).seen = (RingUse.enqueued actions).map Trb.body) ∧
    ∀ calls,
      (pollAll eventBase calls (EventRing.init eventBase)).1.map Trb.body <+:
          (pollAll eventBase calls (EventRing.init eventBase)).2.contents ∧
        ∀ iterations arrivals, 0 < iterations →
          (pollEvent eventBase iterations arrivals
              (pollAll eventBase calls (EventRing.init eventBase)).2).1.map Trb.body =
            (pollEvent eventBase iterations arrivals
              (pollAll eventBase calls (EventRing.init eventBase)).2).2.contents[
                (pollAll eventBase calls (EventRing.init eventBase)).1.length]? := by
  constructor
  · intro actions keeps
    have follows := (RingUse.Follows.start room).run room actions keeps
    have sent : (RingUse.start.run ringBase ringSize actions).sent =
        (RingUse.enqueued actions).map Trb.body := RingUse.run_sent actions
    constructor
    · rw [← sent]
      exact follows.taken
    · intro looks enough
      rw [← sent]
      apply follows.drain room
      unfold RingUse.left
      rw [sent, List.length_map]
      split <;> omega
  · intro calls
    have all := pollAll_taken aligned calls (EventRing.Holds.init eventBase)
    constructor
    · rw [all.2.2, List.drop_zero]
      exact List.take_prefix _ _
    · intro iterations arrivals positive
      have next := pollEvent_next aligned iterations arrivals all.1
      rw [Nat.zero_add] at next
      exact next.2.2 positive

instance (ringSize : Nat) (s : RingUse) (action : RingAction) :
    Decidable (s.Keeps ringSize action) :=
  match action with
  | .enqueue trb => inferInstanceAs (Decidable (trb.type ≠ trbLink ∧ _ < _))
  | .fetch => .isTrue trivial

instance instDecidableKeepsUp (base : UInt32) (ringSize : Nat) : ∀ (s : RingUse) (actions : List RingAction),
    Decidable (s.KeepsUp base ringSize actions)
  | _, [] => .isTrue trivial
  | s, action :: rest =>
      @instDecidableAnd _ _ inferInstance
        (instDecidableKeepsUp base ringSize (s.step base ringSize action) rest)

def fortyCommands : List RingAction :=
  (List.range 40).flatMap fun i => [.enqueue ⟨UInt32.ofNat i, 0, 0, 0x2400⟩, .fetch]

def seventyPolls : List Poll :=
  (List.range 70).map fun i => ⟨2, fun _ => [⟨⟨UInt32.ofNat i, 0, 0, 0x8400⟩, none⟩]⟩

theorem rings_in_order_laps :
    ((RingUse.start.run 0x1000 cmdRingSize fortyCommands).run 0x1000 cmdRingSize
        (List.replicate 81 .fetch)).seen = (RingUse.enqueued fortyCommands).map Trb.body ∧
      (RingUse.enqueued fortyCommands).length = 40 ∧
      (pollAll 0x2000 seventyPolls (EventRing.init 0x2000)).1.map Trb.body <+:
        (pollAll 0x2000 seventyPolls (EventRing.init 0x2000)).2.contents ∧
      (pollAll 0x2000 seventyPolls (EventRing.init 0x2000)).1.length = 70 := by
  have all := @rings_in_order cmdRingSize (by decide) 0x1000 0x2000 (by decide)
  refine ⟨(all.1 fortyCommands (by decide +kernel)).2 81 ?_, by decide, (all.2 seventyPolls).1,
    by decide +kernel⟩
  have forty : (RingUse.enqueued fortyCommands).length = 40 := by decide
  omega

end Xhci

end Trinux
