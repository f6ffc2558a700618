import Trinux.Drivers.Xhci

namespace Trinux

namespace Xhci

/-!
# Requests and their completions

A request is put on its ring, and the driver waits for an event.  All requests wait at the one event
ring, and no waiter looks at the TRB that its event names.
-/

/-! ## what comes while the driver waits -/

def Silent (iterations : Nat) (arrivals : Nat → List Posting) : Prop :=
  ∀ i < iterations, arrivals i = []

def Comes (iterations : Nat) (arrivals : Nat → List Posting) (batch : List Posting) : Prop :=
  ∃ i < iterations, arrivals i = batch ∧ ∀ j < i, arrivals j = []

section

variable {base : UInt32} {s : EventRing} {taken : Nat}

theorem EventRing.Holds.arrive_all (holds : s.Holds base taken) (batch : List Posting)
    (room : s.contents.length + batch.length < taken + evtRingSize) :
    (batch.foldl (EventRing.post base) s).posted = s.posted ++ batch := by
  induction batch generalizing s with
  | nil => exact (List.append_nil _).symm
  | cons p rest ih =>
      rw [List.length_cons] at room
      have free : ¬(s.enqueue + 1) % evtRingSize = s.erdpSlot base := by
        rw [holds.full_iff]
        omega
      have posted : (s.post base p).posted = s.posted ++ [p] := by
        rw [EventRing.post, if_neg free]
      have count : (s.post base p).contents.length = s.contents.length + 1 := by
        rw [EventRing.contents_length, EventRing.contents_length, posted, List.length_append,
          List.length_singleton]
      rw [List.foldl_cons, ih (holds.post p) (by omega), posted, List.append_assoc,
        List.singleton_append]

theorem pollEvent_silent (holds : s.Holds base taken) (all : s.contents.length = taken)
    {iterations : Nat} {arrivals : Nat → List Posting} (silent : Silent iterations arrivals) :
    pollEvent base iterations arrivals s = (none, s) := by
  induction iterations generalizing arrivals with
  | zero => rfl
  | succ left ih =>
      unfold pollEvent
      rw [silent 0 (Nat.succ_pos left), List.foldl_nil]
      dsimp only
      rw [holds.look_none all]
      exact ih fun i below => silent (i + 1) (Nat.succ_lt_succ below)

theorem pollEvent_comes (holds : s.Holds base taken) (aligned : base.toNat % 16 = 0)
    (all : s.contents.length = taken) {iterations : Nat} {arrivals : Nat → List Posting}
    {p : Posting} {rest : List Posting} (room : rest.length + 1 < evtRingSize)
    (comes : Comes iterations arrivals (p :: rest)) :
    ∃ evt after, pollEvent base iterations arrivals s = (some evt, after) ∧
      evt.body = p.evt.body ∧ after.posted = s.posted ++ p :: rest ∧
      after.Holds base (taken + 1) := by
  induction iterations generalizing arrivals with
  | zero =>
      rcases comes with ⟨i, below, _⟩
      exact absurd below (Nat.not_lt_zero i)
  | succ left ih =>
      rcases comes with ⟨i, below, batch, earlier⟩
      unfold pollEvent
      dsimp only
      cases i with
      | zero =>
          rw [batch]
          have posted := holds.arrive_all (p :: rest) (by rw [List.length_cons]; omega)
          have arrived := holds.arrive (p :: rest)
          generalize (p :: rest).foldl (EventRing.post base) s = ring at posted arrived
          have content : ring.contents = s.contents ++ (p :: rest).map fun p => p.evt.body := by
            unfold EventRing.contents
            rw [posted, List.map_append]
          have waiting : taken < ring.contents.length := by
            rw [content, List.length_append, List.length_map, List.length_cons, all]
            omega
          rcases arrived.look_event aligned waiting with ⟨evt, after, looked, found, same, next⟩
          rw [looked]
          refine ⟨evt, after, rfl, ?_, same.trans posted, next⟩
          rw [found]
          apply Option.some_inj.mp
          rw [← List.getElem?_eq_getElem waiting, content, ← all,
            List.getElem?_append_right (Nat.le_refl _), Nat.sub_self]
          rfl
      | succ i =>
          rw [earlier 0 (Nat.succ_pos i), List.foldl_nil, holds.look_none all]
          exact ih ⟨i, Nat.lt_of_succ_lt_succ below, batch,
            fun j before => earlier (j + 1) (Nat.succ_lt_succ before)⟩

theorem pollEvent_waiting (holds : s.Holds base taken) (aligned : base.toNat % 16 = 0)
    (waiting : taken < s.contents.length) {iterations : Nat} {arrivals : Nat → List Posting}
    (positive : 0 < iterations) (silent : arrivals 0 = []) :
    ∃ evt after, pollEvent base iterations arrivals s = (some evt, after) ∧
      evt.body = s.contents[taken] ∧ after.posted = s.posted ∧ after.Holds base (taken + 1) := by
  cases iterations with
  | zero => exact absurd positive (Nat.lt_irrefl 0)
  | succ left =>
      rcases holds.look_event aligned waiting with ⟨evt, after, looked, found, same, next⟩
      unfold pollEvent
      rw [silent, List.foldl_nil]
      dsimp only
      rw [looked]
      exact ⟨evt, after, rfl, found, same, next⟩

end

/-! ## requests -/

/-- The rings of the driver, the number of events that it has taken and the number of requests that
it has made. -/
structure Host where
  cmd : TrbRing
  ep0 : TrbRing
  bulkIn : TrbRing
  bulkOut : TrbRing
  events : EventRing
  taken : Nat
  requests : Nat

structure Layout where
  cmd : UInt32
  ep0 : UInt32
  bulkIn : UInt32
  bulkOut : UInt32
  events : UInt32

structure Outcome where
  rc : Int
  host : Host
  reliedOn : List Nat

def pollIterations (timeoutMs : Nat) : Nat := timeoutMs * 10000

def Host.took (h : Host) (events : EventRing) : Host :=
  { h with events := events, taken := h.taken + 1 }

/-- The events that the controller posts during a request: for each of its polls, before each
look. -/
abbrev Arrivals := Nat → Nat → List Posting

section Requests

variable (layout : Layout)

def commandRetry (h : Host) : Option Trb × EventRing → Outcome
  | (none, events) => ⟨-1, { h with events := events }, []⟩
  | (some evt, events) => ⟨evt.cc.toNat, h.took events, [h.taken]⟩

def commandResult (arrivals : Nat → List Posting) (h : Host) : Option Trb × EventRing → Outcome
  | (none, events) => ⟨-1, { h with events := events }, []⟩
  | (some evt, events) =>
      if evt.type ≠ trbCmdCompletion then
        if evt.type = trbPortStatusChange then
          commandRetry (h.took events)
            (pollEvent layout.events (pollIterations 5000) arrivals events)
        else ⟨-2, h.took events, [h.taken]⟩
      else ⟨evt.cc.toNat, h.took events, [h.taken]⟩

def xhciCommand (h : Host) (trb : Trb) (arrivals : Arrivals) : Outcome :=
  commandResult layout (arrivals 1)
    { h with
      cmd := ringEnqueue layout.cmd cmdRingSize h.cmd trb
      requests := h.requests + 1 }
    (pollEvent layout.events (pollIterations 30000) (arrivals 0) h.events)

def controlTrbs (bmRequestType bRequest : UInt8) (wValue wIndex wLength : UInt16)
    (data : Option UInt32) : List Trb :=
  let dirIn := bmRequestType &&& 0x80 ≠ 0
  let trt : UInt32 := if wLength ≠ 0 then if dirIn then 3 else 2 else 0
  let setup : Trb :=
    ⟨bmRequestType.toUInt32 ||| (bRequest.toUInt32 <<< 8) ||| (wValue.toUInt32 <<< 16),
      wIndex.toUInt32 ||| (wLength.toUInt32 <<< 16), 8, (trbSetupStage <<< 10) ||| trbIdt ||| (trt <<< 16)⟩
  let datastg : List Trb :=
    match data with
    | some data =>
        if wLength ≠ 0 then
          [⟨data, 0, wLength.toUInt32, (trbDataStage <<< 10) ||| if dirIn then 0x10000 else 0⟩]
        else []
    | none => []
  let status : Trb :=
    ⟨0, 0, 0,
      (trbStatusStage <<< 10) ||| trbIoc ||| if ¬dirIn ∧ wLength ≠ 0 then 0x10000 else 0⟩
  setup :: datastg ++ [status]

def controlWait (iterations : Nat) (arrivals : Arrivals) :
    (left : Nat) → (i : Nat) → Host → List Nat → Outcome
  | 0, _, h, reliedOn => ⟨0, h, reliedOn⟩
  | left + 1, i, h, reliedOn =>
      match pollEvent layout.events iterations (arrivals i) h.events with
      | (none, events) => ⟨0, { h with events := events }, reliedOn⟩
      | (some evt, events) =>
          if evt.cc ≠ trbCcSuccess ∧ evt.cc ≠ trbCcShort then
            ⟨-evt.cc.toNat, h.took events, reliedOn ++ [h.taken]⟩
          else
            controlWait iterations arrivals left (i + 1) (h.took events) (reliedOn ++ [h.taken])

def xhciControlTransfer (h : Host) (bmRequestType bRequest : UInt8)
    (wValue wIndex wLength : UInt16) (data : Option UInt32) (arrivals : Arrivals) : Outcome :=
  controlWait layout (pollIterations 30000) arrivals 3 0
    { h with
      ep0 := (controlTrbs bmRequestType bRequest wValue wIndex wLength data).foldl
        (ringEnqueue layout.ep0 xferRingSize) h.ep0
      requests := h.requests + 1 } []

def bulkTrb (data length : UInt32) : Trb := ⟨data, 0, length, (trbNormal <<< 10) ||| trbIoc⟩

def bulkResult (h : Host) : Option Trb × EventRing → Outcome
  | (none, events) => ⟨-1, { h with events := events }, []⟩
  | (some evt, events) =>
      if evt.cc ≠ trbCcSuccess ∧ evt.cc ≠ trbCcShort then ⟨-evt.cc.toNat, h.took events, [h.taken]⟩
      else ⟨0, h.took events, [h.taken]⟩

def xhciBulkTransfer (h : Host) (dirIn : Bool) (data length : UInt32) (arrivals : Arrivals) :
    Outcome :=
  bulkResult
    { h with
      bulkIn := if dirIn then ringEnqueue layout.bulkIn xferRingSize h.bulkIn (bulkTrb data length)
        else h.bulkIn
      bulkOut := if dirIn then h.bulkOut
        else ringEnqueue layout.bulkOut xferRingSize h.bulkOut (bulkTrb data length)
      requests := h.requests + 1 }
    (pollEvent layout.events (pollIterations 30000) (arrivals 0) h.events)

inductive Request where
  | command (trb : Trb)
  | control (bmRequestType bRequest : UInt8) (wValue wIndex wLength : UInt16)
      (data : Option UInt32)
  | bulk (dirIn : Bool) (data length : UInt32)

structure Issue where
  request : Request
  arrivals : Arrivals

def perform (h : Host) (issue : Issue) : Outcome :=
  match issue.request with
  | .command trb => xhciCommand layout h trb issue.arrivals
  | .control bmRequestType bRequest wValue wIndex wLength data =>
      xhciControlTransfer layout h bmRequestType bRequest wValue wIndex wLength data issue.arrivals
  | .bulk dirIn data length => xhciBulkTransfer layout h dirIn data length issue.arrivals

end Requests

def Request.Succeeds : Request → Int → Prop
  | .command _, rc => rc = trbCcSuccess.toNat
  | _, rc => rc = 0

/-- A request that reports success goes by events that complete this very request. -/
def Matched (h : Host) (issue : Issue) (outcome : Outcome) : Prop :=
  issue.request.Succeeds outcome.rc →
    outcome.reliedOn ≠ [] ∧
      ∀ k ∈ outcome.reliedOn, ∃ p, outcome.host.events.posted[k]? = some p ∧
        p.completes = some h.requests

def RunMatched (layout : Layout) : Host → List Issue → Prop
  | _, [] => True
  | h, issue :: rest =>
      Matched h issue (perform layout h issue) ∧ RunMatched layout (perform layout h issue).host rest

/-! ## controllers that answer the driver -/

/-- While a request waits, the controller posts its completion and nothing else; in front of the
completion of a command there may be a port status change.  The completion of a control transfer
does come. -/
def Answered (number : Nat) (issue : Issue) : Prop :=
  match issue.request with
  | .command _ =>
      Silent (pollIterations 30000) (issue.arrivals 0) ∨
      (∃ p, Comes (pollIterations 30000) (issue.arrivals 0) [p] ∧ p.completes = some number ∧
        p.evt.type = trbCmdCompletion) ∨
      (∃ change, Comes (pollIterations 30000) (issue.arrivals 0) [change] ∧
        change.evt.type = trbPortStatusChange ∧
        (Silent (pollIterations 5000) (issue.arrivals 1) ∨
          ∃ p, Comes (pollIterations 5000) (issue.arrivals 1) [p] ∧ p.completes = some number)) ∨
      ∃ change p, Comes (pollIterations 30000) (issue.arrivals 0) [change, p] ∧
        change.evt.type = trbPortStatusChange ∧ p.completes = some number ∧
        issue.arrivals 1 0 = []
  | .control .. =>
      ∃ p, Comes (pollIterations 30000) (issue.arrivals 0) [p] ∧ p.completes = some number ∧
        Silent (pollIterations 30000) (issue.arrivals 1) ∧
        Silent (pollIterations 30000) (issue.arrivals 2)
  | .bulk .. =>
      Silent (pollIterations 30000) (issue.arrivals 0) ∨
      ∃ p, Comes (pollIterations 30000) (issue.arrivals 0) [p] ∧ p.completes = some number

/-- Every request of a run is answered, the first of them with the given number. -/
def RunAnswered : (number : Nat) → List Issue → Prop
  | _, [] => True
  | number, issue :: rest => Answered number issue ∧ RunAnswered (number + 1) rest

structure Host.Idle (layout : Layout) (h : Host) : Prop where
  holds : h.events.Holds layout.events h.taken
  all : h.events.contents.length = h.taken

section

variable {layout : Layout} {h : Host} {issue : Issue}

/-- The first of the events posted after those that the driver has taken. -/
theorem posted_first {s : EventRing} {taken : Nat} (all : s.contents.length = taken) (p : Posting)
    (rest : List Posting) : (s.posted ++ p :: rest)[taken]? = some p := by
  rw [EventRing.contents_length] at all
  rw [← all, List.getElem?_append_right (Nat.le_refl _), Nat.sub_self]
  rfl

theorem posted_second {s : EventRing} {taken : Nat} (all : s.contents.length = taken)
    (first second : Posting) : (s.posted ++ [first, second])[taken + 1]? = some second := by
  rw [EventRing.contents_length] at all
  have offset : s.posted.length + 1 - s.posted.length = 1 := Nat.add_sub_cancel_left ..
  rw [← all, List.getElem?_append_right (Nat.le_succ _), offset]
  rfl

theorem contents_grown {s after : EventRing} {taken : Nat} (all : s.contents.length = taken)
    {batch : List Posting} (posted : after.posted = s.posted ++ batch) :
    after.contents.length = taken + batch.length := by
  rw [EventRing.contents_length] at all ⊢
  rw [posted, List.length_append, all]

theorem matched_single {outcome : Outcome} {p : Posting} {k : Nat}
    (relied : outcome.reliedOn = [k]) (posted : outcome.host.events.posted[k]? = some p)
    (own : p.completes = some h.requests) : Matched h issue outcome := by
  intro _
  rw [relied]
  refine ⟨List.cons_ne_nil _ _, ?_⟩
  intro j member
  rw [List.mem_singleton.mp member]
  exact ⟨p, posted, own⟩

theorem matched_failed {outcome : Outcome} (failed : ¬issue.request.Succeeds outcome.rc) :
    Matched h issue outcome := fun success => absurd success failed

structure Settled (layout : Layout) (h : Host) (issue : Issue) (outcome : Outcome) : Prop where
  matched : Matched h issue outcome
  idle : outcome.host.Idle layout
  requests : outcome.host.requests = h.requests + 1

structure Issued (h h' : Host) : Prop where
  events : h'.events = h.events
  taken : h'.taken = h.taken
  requests : h'.requests = h.requests + 1

section

variable {h' : Host} {outcome : Outcome}

theorem Issued.silent (issued : Issued h h') (idle : h.Idle layout)
    (host : outcome.host = { h' with events := h.events })
    (failed : ¬issue.request.Succeeds outcome.rc) : Settled layout h issue outcome where
  matched := matched_failed failed
  idle := by
    rw [host]
    constructor
    · rw [issued.taken]
      exact idle.holds
    · rw [issued.taken]
      exact idle.all
  requests := by
    rw [host]
    exact issued.requests

theorem Issued.single (issued : Issued h h') (idle : h.Idle layout) {after : EventRing} {p : Posting}
    (posted : after.posted = h.events.posted ++ [p])
    (next : after.Holds layout.events (h.taken + 1)) (own : p.completes = some h.requests)
    (host : outcome.host = h'.took after) (relied : outcome.reliedOn = [h'.taken]) :
    Settled layout h issue outcome where
  matched := by
    apply matched_single relied
    · rw [host, issued.taken]
      change after.posted[h.taken]? = some p
      rw [posted]
      exact posted_first idle.all p []
    · exact own
  idle := by
    rw [host]
    constructor
    · change after.Holds layout.events (h'.taken + 1)
      rw [issued.taken]
      exact next
    · change after.contents.length = h'.taken + 1
      rw [issued.taken]
      exact contents_grown idle.all posted
  requests := by
    rw [host]
    exact issued.requests

theorem Issued.bulk (issued : Issued h h') (idle : h.Idle layout)
    (aligned : layout.events.toNat % 16 = 0) {iterations : Nat} {arrivals : Nat → List Posting}
    (answered : Silent iterations arrivals ∨
      ∃ p, Comes iterations arrivals [p] ∧ p.completes = some h.requests)
    (kind : ∀ rc, issue.request.Succeeds rc ↔ rc = 0) :
    Settled layout h issue
      (bulkResult h' (pollEvent layout.events iterations arrivals h.events)) := by
  rcases answered with silent | ⟨p, comes, own⟩
  · rw [pollEvent_silent idle.holds idle.all silent]
    exact issued.silent idle rfl fun succeeds => absurd ((kind (-1)).mp succeeds) (by decide)
  · rcases pollEvent_comes idle.holds aligned idle.all (by decide) comes with
      ⟨evt, after, polled, _, posted, next⟩
    rw [polled]
    apply issued.single idle posted next own
    · rw [bulkResult]
      split <;> rfl
    · rw [bulkResult]
      split <;> rfl

/-- The wait of a control transfer whose completion comes first and alone. -/
theorem Issued.control (issued : Issued h h') (idle : h.Idle layout)
    (aligned : layout.events.toNat % 16 = 0) {iterations : Nat} {arrivals : Arrivals} {p : Posting}
    (comes : Comes iterations (arrivals 0) [p]) (own : p.completes = some h.requests)
    (second : Silent iterations (arrivals 1)) :
    Settled layout h issue (controlWait layout iterations arrivals 3 0 h' []) := by
  rcases pollEvent_comes idle.holds aligned idle.all (by decide) comes with
    ⟨evt, after, polled, _, posted, next⟩
  rw [controlWait, issued.events, polled]
  dsimp only [List.nil_append]
  by_cases failed : evt.cc ≠ trbCcSuccess ∧ evt.cc ≠ trbCcShort
  · rw [if_pos failed]
    exact issued.single idle posted next own rfl rfl
  · have quiet : pollEvent layout.events iterations (arrivals 1) after = (none, after) :=
      pollEvent_silent next (contents_grown idle.all posted) second
    rw [if_neg failed, controlWait, Host.took, quiet]
    exact issued.single idle posted next own rfl rfl

theorem pollIterations_pos {timeoutMs : Nat} (positive : 0 < timeoutMs) :
    0 < pollIterations timeoutMs :=
  Nat.mul_pos positive (by decide)

theorem Settled.of_requests {first second : Host} (same : first.requests = second.requests)
    (settled : Settled layout first issue outcome) : Settled layout second issue outcome where
  matched := by
    unfold Matched
    rw [← same]
    exact settled.matched
  idle := settled.idle
  requests := by
    rw [← same]
    exact settled.requests

/-- The second poll of a command, after a port status change. -/
theorem Issued.retry (issued : Issued h h') (idle : h.Idle layout)
    (aligned : layout.events.toNat % 16 = 0) {iterations : Nat} {arrivals : Nat → List Posting}
    (answered : Silent iterations arrivals ∨
      ∃ p, Comes iterations arrivals [p] ∧ p.completes = some h.requests)
    (kind : ∀ rc, issue.request.Succeeds rc ↔ rc = 1) :
    Settled layout h issue
      (commandRetry h' (pollEvent layout.events iterations arrivals h.events)) := by
  rcases answered with silent | ⟨p, comes, own⟩
  · rw [pollEvent_silent idle.holds idle.all silent]
    exact issued.silent idle rfl fun succeeds => absurd ((kind (-1)).mp succeeds) (by decide)
  · rcases pollEvent_comes idle.holds aligned idle.all (by decide) comes with
      ⟨evt, after, polled, _, posted, next⟩
    rw [polled]
    exact issued.single idle posted next own rfl rfl

/-- The answer to a command comes alone, or after a port status change. -/
theorem Issued.command (issued : Issued h h') (idle : h.Idle layout)
    (aligned : layout.events.toNat % 16 = 0) {trb : Trb} {arrivals : Arrivals}
    (answered : Answered h.requests ⟨.command trb, arrivals⟩)
    (kind : ∀ rc, issue.request.Succeeds rc ↔ rc = 1) :
    Settled layout h issue (commandResult layout (arrivals 1) h'
      (pollEvent layout.events (pollIterations 30000) (arrivals 0) h.events)) := by
  have other : ¬trbPortStatusChange = trbCmdCompletion := by decide
  unfold Answered at answered
  dsimp only at answered
  rcases answered with silent | ⟨p, comes, own, type⟩ | ⟨change, comes, type, later⟩ |
    ⟨change, p, comes, type, own, quiet⟩
  · rw [pollEvent_silent idle.holds idle.all silent]
    exact issued.silent idle rfl fun succeeds => absurd ((kind (-1)).mp succeeds) (by decide)
  · rcases pollEvent_comes idle.holds aligned idle.all (by decide) comes with
      ⟨evt, after, polled, content, posted, next⟩
    have seen : evt.type = trbCmdCompletion := (type_eq_of_body content).trans type
    rw [polled, commandResult, if_neg (not_not_intro seen)]
    exact issued.single idle posted next own rfl rfl
  · rcases pollEvent_comes idle.holds aligned idle.all (by decide) comes with
      ⟨evt, after, polled, content, posted, next⟩
    have seen : evt.type = trbPortStatusChange := (type_eq_of_body content).trans type
    rw [polled, commandResult, seen, if_pos other, if_pos rfl]
    have idle' : (h.took after).Idle layout := ⟨next, contents_grown idle.all posted⟩
    have issued' : Issued (h.took after) (h'.took after) :=
      ⟨rfl, congrArg (· + 1) issued.taken, issued.requests⟩
    have same : (h.took after).requests = h.requests := rfl
    exact Settled.of_requests same (issued'.retry idle' aligned later kind)
  · have room : [p].length + 1 < evtRingSize := by
      change 2 < 64
      decide
    rcases pollEvent_comes idle.holds aligned idle.all room comes with
      ⟨evt, after, polled, content, posted, next⟩
    have seen : evt.type = trbPortStatusChange := (type_eq_of_body content).trans type
    rw [polled, commandResult, seen, if_pos other, if_pos rfl]
    have count : after.contents.length = h.taken + 2 := contents_grown idle.all posted
    have positive : 0 < pollIterations 5000 := pollIterations_pos (by decide)
    rcases pollEvent_waiting next aligned (by omega) positive quiet with
      ⟨evt', after', polled', _, posted', next'⟩
    rw [polled']
    have found : after'.posted[h.taken + 1]? = some p := by
      rw [posted', posted]
      exact posted_second idle.all change p
    constructor
    · apply matched_single
      · rfl
      · change after'.posted[h'.taken + 1]? = some p
        rw [issued.taken]
        exact found
      · exact own
    · constructor
      · change after'.Holds layout.events (h'.taken + 1 + 1)
        rw [issued.taken]
        exact next'
      · change after'.contents.length = h'.taken + 1 + 1
        rw [issued.taken, EventRing.contents_length, posted', ← EventRing.contents_length]
        exact count
    · exact issued.requests

end

theorem perform_settled (idle : h.Idle layout) (aligned : layout.events.toNat % 16 = 0)
    (answered : Answered h.requests issue) :
    Settled layout h issue (perform layout h issue) := by
  rcases issue with ⟨request, arrivals⟩
  cases request with
  | command trb =>
      have issued : Issued h { h with
          cmd := ringEnqueue layout.cmd cmdRingSize h.cmd trb
          requests := h.requests + 1 } := ⟨rfl, rfl, rfl⟩
      exact issued.command idle aligned answered fun _ => Iff.rfl
  | control bmRequestType bRequest wValue wIndex wLength data =>
      rcases answered with ⟨p, comes, own, second, _⟩
      have issued : Issued h { h with
          ep0 := (controlTrbs bmRequestType bRequest wValue wIndex wLength data).foldl
            (ringEnqueue layout.ep0 xferRingSize) h.ep0
          requests := h.requests + 1 } := ⟨rfl, rfl, rfl⟩
      exact issued.control idle aligned comes own second
  | bulk dirIn data length =>
      have issued : Issued h { h with
          bulkIn := if dirIn then ringEnqueue layout.bulkIn xferRingSize h.bulkIn
              (bulkTrb data length)
            else h.bulkIn
          bulkOut := if dirIn then h.bulkOut
            else ringEnqueue layout.bulkOut xferRingSize h.bulkOut (bulkTrb data length)
          requests := h.requests + 1 } := ⟨rfl, rfl, rfl⟩
      exact issued.bulk idle aligned answered fun _ => Iff.rfl

end

def Host.start (layout : Layout) : Host :=
  ⟨TrbRing.alloc, TrbRing.alloc, TrbRing.alloc, TrbRing.alloc, EventRing.init layout.events, 0, 0⟩

theorem idle_run {layout : Layout} (aligned : layout.events.toNat % 16 = 0) {h : Host}
    (idle : h.Idle layout) (issues : List Issue) (answered : RunAnswered h.requests issues) :
    RunMatched layout h issues := by
  induction issues generalizing h with
  | nil => trivial
  | cons issue rest ih =>
      have settled := perform_settled idle aligned answered.1
      refine ⟨settled.matched, ih settled.idle ?_⟩
      rw [settled.requests]
      exact answered.2

/-- Every run in which the controller answers the driver. -/
theorem completions_matched (layout : Layout) (aligned : layout.events.toNat % 16 = 0)
    (issues : List Issue) (answered : RunAnswered 0 issues) :
    RunMatched layout (Host.start layout) issues := by
  have idle : (Host.start layout).Idle layout := ⟨EventRing.Holds.init layout.events, rfl⟩
  exact idle_run aligned idle issues answered

/-- A bulk transfer whose completion is there at the first look, a command for which nothing comes,
and a transfer whose completion comes later. -/
theorem completions_matched_requests :
    RunMatched ⟨0x1000, 0x2000, 0x3000, 0x4000, 0x5000⟩
      (Host.start ⟨0x1000, 0x2000, 0x3000, 0x4000, 0x5000⟩)
      [⟨.bulk false 0x6000 31, fun _ _ => [⟨⟨0x4000, 0, 0x1000000, 0x8000⟩, some 0⟩]⟩,
        ⟨.command ⟨0, 0, 0, 0x2400⟩, fun _ _ => []⟩,
        ⟨.bulk true 0x7000 36, fun _ look =>
          if look = 2 then [⟨⟨0x3000, 0, 0x1000000, 0x8000⟩, some 2⟩] else []⟩] := by
  apply completions_matched _ (by decide)
  refine ⟨Or.inr ⟨_, ⟨0, pollIterations_pos (by decide), rfl, ?_⟩, rfl⟩, Or.inl fun _ _ => rfl,
    Or.inr ⟨_, ⟨2, ?_, rfl, ?_⟩, rfl⟩, trivial⟩
  · exact fun j before => absurd before (Nat.not_lt_zero j)
  · decide
  · exact fun j before => if_neg (Nat.ne_of_lt before)

/-- A bulk transfer goes by the first event that comes, whatever it is. -/
theorem bulk_takes_any {layout : Layout} (aligned : layout.events.toNat % 16 = 0) {h : Host}
    (idle : h.Idle layout) (dirIn : Bool) (data length : UInt32) {arrivals : Arrivals} {p : Posting}
    (comes : Comes (pollIterations 30000) (arrivals 0) [p])
    (good : p.evt.cc = trbCcSuccess ∨ p.evt.cc = trbCcShort) :
    (xhciBulkTransfer layout h dirIn data length arrivals).rc = 0 ∧
      (xhciBulkTransfer layout h dirIn data length arrivals).reliedOn = [h.taken] ∧
      (xhciBulkTransfer layout h dirIn data length arrivals).host.events.posted[h.taken]? =
        some p := by
  rcases pollEvent_comes idle.holds aligned idle.all (by decide) comes with
    ⟨evt, after, polled, content, posted, _⟩
  have code : evt.body.cc = p.evt.body.cc := congrArg Trb.cc content
  change evt.cc = p.evt.cc at code
  have accepted : ¬(evt.cc ≠ trbCcSuccess ∧ evt.cc ≠ trbCcShort) := by
    rw [code]
    exact fun neither => good.elim neither.1 neither.2
  unfold xhciBulkTransfer
  rw [polled, bulkResult, if_neg accepted]
  refine ⟨rfl, rfl, ?_⟩
  change after.posted[h.taken]? = some p
  rw [posted]
  exact posted_first idle.all p []

def portChange : Posting := ⟨⟨0x1000000, 0, 0x1000000, 0x8800⟩, none⟩

def portChanges : Arrivals := fun _ _ => [portChange]

/-- A port status change that comes during a bulk transfer is taken for its completion. -/
theorem portChange_taken :
    ¬RunMatched ⟨0x1000, 0x2000, 0x3000, 0x4000, 0x5000⟩
      (Host.start ⟨0x1000, 0x2000, 0x3000, 0x4000, 0x5000⟩)
      [⟨.bulk false 0x6000 31, portChanges⟩] := by
  intro matched
  have idle : (Host.start ⟨0x1000, 0x2000, 0x3000, 0x4000, 0x5000⟩).Idle
      ⟨0x1000, 0x2000, 0x3000, 0x4000, 0x5000⟩ := ⟨EventRing.Holds.init 0x5000, rfl⟩
  have comes : Comes (pollIterations 30000) (portChanges 0) [portChange] :=
    ⟨0, pollIterations_pos (by decide), rfl, fun j before => absurd before (Nat.not_lt_zero j)⟩
  have taken := bulk_takes_any (by decide) idle false 0x6000 31 comes (by decide)
  have own := matched.1
  unfold Matched perform at own
  dsimp only at own
  rcases (own taken.1).2 0 (by rw [taken.2.1]; exact List.mem_singleton_self _) with
    ⟨p, found, completes⟩
  have same := Option.some_inj.mp (taken.2.2.symm.trans found)
  rw [← same] at completes
  cases completes

end Xhci

end Trinux
