import Mathlib.Data.List.Basic
import Mathlib.Tactic.SplitIfs

namespace Trinux

/-!
# Input from the serial line

Bytes from the UART are decoded one at a time: escape sequences of a terminal become the codes of
keys, which go to the queue of the keyboard.
-/

namespace Serial

/-! ## Keys -/

def keyUp : Nat := 0x80

def keyDown : Nat := 0x81

def keyLeft : Nat := 0x82

def keyRight : Nat := 0x83

def keyF1 : Nat := 0x84

def keyF2 : Nat := 0x85

def keyF3 : Nat := 0x86

def keyF4 : Nat := 0x87

def keyF5 : Nat := 0x88

def keyF6 : Nat := 0x89

def keyF7 : Nat := 0x8A

def keyF8 : Nat := 0x8B

def keyF9 : Nat := 0x8C

def keyF10 : Nat := 0x8D

def keyF11 : Nat := 0x8E

def keyF12 : Nat := 0x8F

def keyHome : Nat := 0x90

def keyEnd : Nat := 0x91

def keyDelete : Nat := 0x92

def keyEsc : Nat := 0x1B

def tildeKey : Nat → Option Nat
  | 1 | 7 => some keyHome
  | 4 | 8 => some keyEnd
  | 3 => some keyDelete
  | 11 => some keyF1
  | 12 => some keyF2
  | 13 => some keyF3
  | 14 => some keyF4
  | 15 => some keyF5
  | 17 => some keyF6
  | 18 => some keyF7
  | 19 => some keyF8
  | 20 => some keyF9
  | 21 => some keyF10
  | 23 => some keyF11
  | 24 => some keyF12
  | _ => none

def letterKey (fin : UInt8) : Option Nat :=
  if fin = 65 then some keyUp
  else if fin = 66 then some keyDown
  else if fin = 67 then some keyRight
  else if fin = 68 then some keyLeft
  else if fin = 72 then some keyHome
  else if fin = 70 then some keyEnd
  else none

def plainKey (b : UInt8) : Nat := if b = 13 then 10 else if b = 0x7F then 8 else b.toNat

/-! ## The decoder -/

inductive DecState where
  | normal
  | esc
  | csi
  | ss3
  | csiNum
deriving DecidableEq

structure Decoder where
  decState : DecState := .normal
  decNum : Nat := 0
  decPendingEsc : Nat := 0
deriving DecidableEq

def escFlushBytes : Nat := 8

def decoderFlushLoneEsc (d : Decoder) : List Nat × Decoder :=
  if d.decState = .esc ∧ 0 < d.decPendingEsc then
    ([keyEsc], { d with decState := .normal, decPendingEsc := 0 })
  else ([], d)

def decoderEmitCsiFinal (d : Decoder) (fin : UInt8) : List Nat × Decoder :=
  let n := if d.decState = .csiNum then d.decNum else 0
  ((if fin = 126 then tildeKey n else letterKey fin).toList, ⟨.normal, 0, 0⟩)

def feedNormal (d : Decoder) (b : UInt8) : List Nat × Decoder :=
  if b = 0x1B then ([], { d with decState := .esc, decPendingEsc := 1 })
  else ([plainKey b], d)

def feedState (d : Decoder) (b : UInt8) : List Nat × Decoder :=
  match d.decState with
  | .normal => feedNormal d b
  | .esc =>
      if b = 91 then ([], { d with decState := .csi, decNum := 0, decPendingEsc := 0 })
      else if b = 79 then ([], { d with decState := .ss3, decPendingEsc := 0 })
      else if b = 0x1B then ([keyEsc], { d with decPendingEsc := 1 })
      else
        let again := feedNormal { d with decState := .normal, decPendingEsc := 0 } b
        (keyEsc :: again.1, again.2)
  | .csi =>
      if 48 ≤ b ∧ b ≤ 57 then
        ([], { d with decNum := b.toNat - 48, decState := .csiNum })
      else decoderEmitCsiFinal d b
  | .csiNum =>
      if 48 ≤ b ∧ b ≤ 57 then
        let n := d.decNum * 10 + (b.toNat - 48)
        ([], { d with decNum := if 999 < n then 999 else n })
      else if b = 59 then ([], d)
      else decoderEmitCsiFinal d b
  | .ss3 => decoderEmitCsiFinal d b

def decoderFeed (d : Decoder) (b : UInt8) : List Nat × Decoder :=
  if d.decState = .esc then
    let aged := { d with decPendingEsc := d.decPendingEsc + 1 }
    if escFlushBytes < aged.decPendingEsc then
      let flushed := decoderFlushLoneEsc aged
      let fed := feedState flushed.2 b
      (flushed.1 ++ fed.1, fed.2)
    else feedState aged b
  else feedState d b

def feedAll (d : Decoder) : List UInt8 → List Nat × Decoder
  | [] => ([], d)
  | b :: rest =>
      let fed := decoderFeed d b
      ((fed.1 ++ (feedAll fed.2 rest).1), (feedAll fed.2 rest).2)

/-! ## Interrupts -/

/-- The receive FIFO of the UART, the decoder, and the keys that were injected. -/
structure Line where
  fifo : List UInt8 := []
  decoder : Decoder := {}
  keys : List Nat := []
deriving DecidableEq

def callbackLoop (guard : Nat) (line : Line) : List UInt8 → Line
  | [] => { line with fifo := [] }
  | b :: rest =>
      let fed := decoderFeed line.decoder b
      let line := { line with decoder := fed.2, keys := line.keys ++ fed.1 }
      if 256 < guard + 1 then { line with fifo := rest } else callbackLoop (guard + 1) line rest

def serialCallback (line : Line) : Line := callbackLoop 0 line line.fifo

inductive Event where
  | receive (bytes : List UInt8)
  | interrupt

def Line.step (line : Line) : Event → Line
  | .receive bytes => { line with fifo := line.fifo ++ bytes }
  | .interrupt => serialCallback line

def Line.run (line : Line) (events : List Event) : Line := events.foldl Line.step line

def received (events : List Event) : List UInt8 :=
  events.flatMap fun event => match event with
    | .receive bytes => bytes
    | .interrupt => []

/-! ## Streams -/

def numberFrom (v : Nat) (digits : List (Fin 10)) : Nat :=
  digits.foldl (fun v digit => v * 10 + digit.val) v

def digitByte (digit : Fin 10) : UInt8 := UInt8.ofNat (48 + digit.val)

structure Sequence where
  first : List (Fin 10)
  others : List (List (Fin 10))
  final : UInt8
  isFinal : ¬(48 ≤ final ∧ final ≤ 57) ∧ final ≠ 59

def Sequence.bytes (s : Sequence) : List UInt8 :=
  0x1B :: 91 :: (s.first.map digitByte ++
    (s.others.flatMap fun digits => 59 :: digits.map digitByte) ++ [s.final])

def Sequence.key (s : Sequence) : Option Nat :=
  if s.final = 126 then tildeKey (numberFrom 0 s.first) else letterKey s.final

/-- What a stream consists of: bytes outside sequences, control sequences, and sequences
`ESC O final`. -/
inductive Item where
  | plain (b : UInt8) (outside : b ≠ 0x1B)
  | csi (s : Sequence)
  | ss3 (final : UInt8)

def Item.bytes : Item → List UInt8
  | .plain b _ => [b]
  | .csi s => s.bytes
  | .ss3 final => [0x1B, 79, final]

def Item.keys : Item → List Nat
  | .plain b _ => [plainKey b]
  | .csi s => s.key.toList
  | .ss3 final => (letterKey final).toList

/-- However the bytes of some first items come and whenever they are read, the keys are those of
the items and the decoder is where it began. -/
def DecodesAlways (items : List Item) : Prop :=
  ∀ n events, received events = (items.take n).flatMap Item.bytes →
    (Line.run {} events).fifo = [] →
      (Line.run {} events).keys = (items.take n).flatMap Item.keys ∧
        (Line.run {} events).decoder = {}

/-- The secondary parameters of a sequence are not taken for digits of the first: there are none,
or there is a first one, and the sequence does not end in `~`, or they have no digits, or neither
the first number has a key nor the one that all the digits write. -/
def Sequence.Separated (s : Sequence) : Prop :=
  s.others = [] ∨ s.first ≠ [] ∧ (s.final = 126 → s.others.flatten = [] ∨
    tildeKey (numberFrom 0 s.first) = none ∧
      tildeKey (numberFrom 0 (s.first ++ s.others.flatten)) = none)

/-! ## What interrupts feed -/

theorem feedAll_append (d : Decoder) (before after : List UInt8) :
    feedAll d (before ++ after) = ((feedAll d before).1 ++ (feedAll (feedAll d before).2 after).1,
      (feedAll (feedAll d before).2 after).2) := by
  induction before generalizing d with
  | nil => rfl
  | cons b rest known =>
      rw [List.cons_append, feedAll, feedAll, known]
      dsimp only
      rw [List.append_assoc]

theorem callbackLoop_feeds (line : Line) (bytes : List UInt8) (guard : Nat) :
    ∃ fed, bytes = fed ++ (callbackLoop guard line bytes).fifo ∧
      (callbackLoop guard line bytes).keys = line.keys ++ (feedAll line.decoder fed).1 ∧
      (callbackLoop guard line bytes).decoder = (feedAll line.decoder fed).2 := by
  induction bytes generalizing line guard with
  | nil => exact ⟨[], rfl, (List.append_nil _).symm, rfl⟩
  | cons b rest known =>
      unfold callbackLoop
      dsimp only
      split_ifs with last
      · refine ⟨[b], rfl, ?_, rfl⟩
        rw [feedAll, feedAll, List.append_nil]
      · rcases known { line with
          decoder := (decoderFeed line.decoder b).2
          keys := line.keys ++ (decoderFeed line.decoder b).1 } (guard + 1) with
          ⟨fed, split, keys, decoder⟩
        refine ⟨b :: fed, congrArg (b :: ·) split, ?_, decoder⟩
        rw [keys, feedAll, List.append_assoc]

/-- The keys and the decoder are those of the bytes that the FIFO no longer holds. -/
def Line.Follows (line : Line) (bytes : List UInt8) : Prop :=
  ∃ fed, bytes = fed ++ line.fifo ∧ line.keys = (feedAll {} fed).1 ∧
    line.decoder = (feedAll {} fed).2

theorem step_follows {line : Line} {bytes : List UInt8} (follows : line.Follows bytes)
    (event : Event) : (line.step event).Follows (bytes ++ received [event]) := by
  rcases follows with ⟨fed, split, keys, decoder⟩
  cases event with
  | receive new =>
      refine ⟨fed, ?_, keys, decoder⟩
      have one : received [.receive new] = new := List.append_nil new
      rw [one, split, List.append_assoc]
      rfl
  | interrupt =>
      rcases callbackLoop_feeds line line.fifo 0 with ⟨more, rest, newKeys, newDecoder⟩
      refine ⟨fed ++ more, ?_, ?_, ?_⟩
      · have none_ : received [.interrupt] = [] := rfl
        rw [none_, List.append_nil, split, List.append_assoc]
        exact congrArg (fed ++ ·) rest
      · rw [feedAll_append, ← keys, ← decoder]
        exact newKeys
      · rw [feedAll_append, ← decoder]
        exact newDecoder

theorem run_follows (events : List Event) {line : Line} {bytes : List UInt8}
    (follows : line.Follows bytes) : (line.run events).Follows (bytes ++ received events) := by
  induction events generalizing line bytes with
  | nil =>
      rw [received, List.flatMap_nil, List.append_nil]
      exact follows
  | cons event rest known =>
      have after := known (step_follows follows event)
      have all : received (event :: rest) = received [event] ++ received rest := by
        rw [received, List.flatMap_cons]
        exact congrArg (· ++ received rest) (List.append_nil _).symm
      rw [all, ← List.append_assoc]
      exact after

/-- However bytes come, the keys are those of the bytes in their order. -/
theorem run_feeds {events : List Event} (drained : (Line.run {} events).fifo = []) :
    (Line.run {} events).keys = (feedAll {} (received events)).1 ∧
      (Line.run {} events).decoder = (feedAll {} (received events)).2 := by
  have start : Line.Follows {} [] := ⟨[], rfl, rfl, rfl⟩
  rcases run_follows events start with ⟨fed, split, keys, decoder⟩
  rw [drained, List.append_nil, List.nil_append] at split
  rw [split]
  exact ⟨keys, decoder⟩

def oneByOne (bytes : List UInt8) : List Event :=
  bytes.flatMap fun b => [.receive [b], .interrupt]

theorem oneByOne_received (bytes : List UInt8) : received (oneByOne bytes) = bytes := by
  induction bytes with
  | nil => rfl
  | cons b rest known => exact congrArg (b :: ·) known

theorem oneByOne_drained (bytes : List UInt8) {line : Line} (empty : line.fifo = []) :
    (line.run (oneByOne bytes)).fifo = [] := by
  induction bytes generalizing line with
  | nil => exact empty
  | cons b rest known =>
      apply @known ((line.step (.receive [b])).step .interrupt)
      change (callbackLoop 0 { line with fifo := line.fifo ++ [b] } (line.fifo ++ [b])).fifo = []
      rw [empty]
      rfl

/-- What is promised for all ways in which bytes come is promised for the decoder alone. -/
theorem decodesAlways_iff (items : List Item) :
    DecodesAlways items ↔ ∀ n, feedAll {} ((items.take n).flatMap Item.bytes) =
      ((items.take n).flatMap Item.keys, {}) := by
  constructor
  · intro decodes n
    have bytes := oneByOne_received ((items.take n).flatMap Item.bytes)
    have drained := @oneByOne_drained ((items.take n).flatMap Item.bytes) {} rfl
    have promised := decodes n _ bytes drained
    have fed := run_feeds drained
    rw [bytes] at fed
    exact Prod.ext (fed.1.symm.trans promised.1) (fed.2.symm.trans promised.2)
  · intro decodes n events bytes drained
    have fed := run_feeds drained
    rw [bytes, decodes n] at fed
    exact fed

/-! ## Sequences -/

def counting (v : Nat) : Decoder := ⟨.csiNum, min v 999, 0⟩

theorem digitByte_toNat (digit : Fin 10) : (digitByte digit).toNat = 48 + digit.val := by
  unfold digitByte
  rw [UInt8.toNat_ofNat']
  omega

theorem digitByte_isDigit (digit : Fin 10) : 48 ≤ digitByte digit ∧ digitByte digit ≤ 57 := by
  have value := digitByte_toNat digit
  rw [UInt8.le_iff_toNat_le, UInt8.le_iff_toNat_le, value]
  change 48 ≤ 48 + digit.val ∧ 48 + digit.val ≤ 57
  omega

theorem decoderFeed_digit (v : Nat) (digit : Fin 10) :
    decoderFeed (counting v) (digitByte digit) = ([], counting (v * 10 + digit.val)) := by
  change (if 48 ≤ digitByte digit ∧ digitByte digit ≤ 57 then _ else _) = _
  rw [if_pos (digitByte_isDigit digit), digitByte_toNat, Nat.add_sub_cancel_left]
  unfold counting
  simp only [Prod.mk.injEq, Decoder.mk.injEq, true_and, and_true]
  split_ifs <;> omega

theorem feedAll_digits (v : Nat) (digits : List (Fin 10)) :
    feedAll (counting v) (digits.map digitByte) = ([], counting (numberFrom v digits)) := by
  induction digits generalizing v with
  | nil => rfl
  | cons digit rest known =>
      rw [List.map_cons, feedAll, decoderFeed_digit]
      exact known _

theorem feedAll_others (v : Nat) (others : List (List (Fin 10))) :
    feedAll (counting v) (others.flatMap fun digits => 59 :: digits.map digitByte) =
      ([], counting (numberFrom v others.flatten)) := by
  induction others generalizing v with
  | nil => rfl
  | cons digits rest known =>
      have separator : decoderFeed (counting v) 59 = ([], counting v) := rfl
      rw [List.flatMap_cons, List.cons_append, feedAll, separator]
      dsimp only
      rw [feedAll_append, feedAll_digits]
      dsimp only
      rw [known, List.flatten_cons]
      unfold numberFrom
      rw [List.foldl_append]
      rfl

theorem tildeKey_some {v key : Nat} (found : tildeKey v = some key) : v ≤ 24 := by
  unfold tildeKey at found
  split at found <;> first | omega | cases found

theorem tildeKey_large {v : Nat} (large : 24 < v) : tildeKey v = none := by
  cases found : tildeKey v with
  | none => rfl
  | some key => exact absurd (tildeKey_some found) (Nat.not_le.mpr large)

theorem tildeKey_min (v : Nat) : tildeKey (min v 999) = tildeKey v := by
  by_cases small : v ≤ 999
  · rw [Nat.min_eq_left small]
  · rw [Nat.min_eq_right (Nat.le_of_not_le small), tildeKey_large (by omega : 24 < v)]
    rfl

theorem decoderFeed_final (v : Nat) {fin : UInt8} (isFinal : ¬(48 ≤ fin ∧ fin ≤ 57) ∧ fin ≠ 59) :
    decoderFeed (counting v) fin =
      ((if fin = 126 then tildeKey v else letterKey fin).toList, {}) := by
  change (if 48 ≤ fin ∧ fin ≤ 57 then _ else if fin = 59 then _ else
    ((if fin = 126 then tildeKey (min v 999) else letterKey fin).toList, _)) = _
  rw [if_neg isFinal.1, if_neg isFinal.2, tildeKey_min]

/-- A sequence with a first parameter has the key of the number that all digits write. -/
theorem feedAll_first (s : Sequence) (first : s.first ≠ []) :
    feedAll {} s.bytes =
      ((if s.final = 126 then tildeKey (numberFrom 0 (s.first ++ s.others.flatten))
        else letterKey s.final).toList, {}) := by
  rcases s with ⟨first', others, final, isFinal⟩
  cases first' with
  | nil => exact absurd rfl first
  | cons digit digits =>
      have opened (rest : List UInt8) :
          feedAll {} (0x1B :: 91 :: rest) = feedAll ⟨.csi, 0, 0⟩ rest := rfl
      have started : decoderFeed ⟨.csi, 0, 0⟩ (digitByte digit) = ([], counting digit.val) := by
        change (if 48 ≤ digitByte digit ∧ digitByte digit ≤ 57 then _ else _) = _
        rw [if_pos (digitByte_isDigit digit), digitByte_toNat, Nat.add_sub_cancel_left]
        unfold counting
        rw [Nat.min_eq_left (by omega)]
      unfold Sequence.bytes
      dsimp only
      rw [opened, List.map_cons, List.cons_append, List.cons_append, feedAll, started]
      dsimp only
      rw [feedAll_append, feedAll_append, feedAll_digits]
      dsimp only
      rw [feedAll_others]
      dsimp only
      rw [feedAll, feedAll,
        decoderFeed_final _ isFinal]
      have number : numberFrom (numberFrom digit.val digits) others.flatten =
          numberFrom 0 (digit :: digits ++ others.flatten) := by
        unfold numberFrom
        rw [List.foldl_append, List.foldl_cons, Nat.zero_mul, Nat.zero_add]
      rw [number]
      exact Prod.ext (List.append_nil _) rfl

theorem decoderFeed_plain {b : UInt8} (outside : b ≠ 0x1B) :
    decoderFeed {} b = ([plainKey b], {}) := by
  change (if b = 0x1B then _ else _) = _
  rw [if_neg outside]

theorem feedAll_plain (bytes : List UInt8) (outside : ∀ b ∈ bytes, b ≠ 0x1B) :
    feedAll {} bytes = (bytes.map plainKey, {}) := by
  induction bytes with
  | nil => rfl
  | cons b rest known =>
      rw [feedAll, decoderFeed_plain (outside b List.mem_cons_self)]
      dsimp only
      rw [known fun b' there => outside b' (List.mem_cons_of_mem b there)]
      rfl

theorem letterKey_ne (fin : UInt8) : letterKey fin ≠ some (plainKey fin) := by
  intro same
  unfold letterKey at same
  split_ifs at same with up down right left home end_
  · subst up
    exact absurd same (by decide)
  · subst down
    exact absurd same (by decide)
  · subst right
    exact absurd same (by decide)
  · subst left
    exact absurd same (by decide)
  · subst home
    exact absurd same (by decide)
  · subst end_
    exact absurd same (by decide)

/-- Without a first parameter a sequence ends at its first `;`, and what follows is read as bytes
outside sequences. -/
theorem feedAll_others_only (s : Sequence) (first : s.first = []) (others : s.others ≠ []) :
    feedAll {} s.bytes ≠ (s.key.toList, {}) := by
  rcases s with ⟨first', others', final, isFinal⟩
  dsimp only at first others
  subst first
  cases others' with
  | nil => exact absurd rfl others
  | cons digits rest =>
      have opened (bytes : List UInt8) :
          feedAll {} (0x1B :: 91 :: 59 :: bytes) = feedAll {} bytes := rfl
      have shown : (Sequence.mk [] (digits :: rest) final isFinal).bytes =
          0x1B :: 91 :: 59 :: (digits.map digitByte ++
            (rest.flatMap fun digits => 59 :: digits.map digitByte) ++ [final]) := rfl
      have isDigit : ∀ (digits : List (Fin 10)), ∀ b ∈ digits.map digitByte, b ≠ 0x1B := by
        rintro digits b there rfl
        rcases List.mem_map.mp there with ⟨digit, -, same⟩
        have digit' := digitByte_isDigit digit
        rw [same] at digit'
        exact absurd digit' (by decide)
      have outside : ∀ b ∈ digits.map digitByte ++
          (rest.flatMap fun digits => 59 :: digits.map digitByte), b ≠ 0x1B := by
        intro b there
        rcases List.mem_append.mp there with front | back
        · exact isDigit digits b front
        · rcases List.mem_flatMap.mp back with ⟨digits', -, there'⟩
          rcases List.mem_cons.mp there' with rfl | digit
          · decide
          · exact isDigit digits' b digit
      intro promised
      rw [shown, opened, feedAll_append, feedAll_plain _ outside] at promised
      dsimp only at promised
      by_cases escape : final = 0x1B
      · subst escape
        exact absurd (congrArg (fun fed => fed.2.decState) promised) DecState.noConfusion
      · rw [feedAll, decoderFeed_plain escape] at promised
        have keys := (Prod.mk.inj promised).1
        unfold Sequence.key at keys
        dsimp only [feedAll] at keys
        rw [List.append_nil] at keys
        cases found : (if final = 126 then tildeKey (numberFrom 0 []) else letterKey final) with
        | none =>
            rw [found] at keys
            exact List.append_ne_nil_of_right_ne_nil _ (List.cons_ne_nil _ _) keys
        | some key =>
            rw [found] at keys
            have last := congrArg List.getLast? keys
            rw [List.getLast?_append, List.getLast?_singleton] at last
            have same : some (plainKey final) = some key := last
            rw [← same] at found
            split_ifs at found with tilde
            · cases found
            · exact letterKey_ne final found

theorem numberFrom_ge (v : Nat) (digits : List (Fin 10)) : v ≤ numberFrom v digits := by
  induction digits generalizing v with
  | nil => exact Nat.le_refl v
  | cons digit rest known =>
      have later : v * 10 + digit.val ≤ numberFrom v (digit :: rest) := known _
      omega

theorem tildeKey_digits {v : Nat} {digits : List (Fin 10)} (some_ : digits ≠ []) :
    tildeKey (numberFrom v digits) = tildeKey v ↔
      tildeKey v = none ∧ tildeKey (numberFrom v digits) = none := by
  constructor
  · intro same
    have shown : tildeKey v = none := by
      cases found : tildeKey v with
      | none => rfl
      | some key =>
          have small := tildeKey_some found
          have small' := tildeKey_some (same.trans found)
          have larger : v * 10 ≤ numberFrom v digits := by
            cases digits with
            | nil => exact absurd rfl some_
            | cons digit rest =>
                have later : v * 10 + digit.val ≤ numberFrom v (digit :: rest) :=
                  numberFrom_ge _ rest
                omega
          have all : ∀ v ≤ 24, ∀ v' ≤ 24, v * 10 ≤ v' → tildeKey v' = tildeKey v →
              tildeKey v = none := by
            decide +kernel
          rw [← found]
          exact all v small _ small' larger same
    exact ⟨shown, same.trans shown⟩
  · rintro ⟨before, after⟩
    rw [before, after]

theorem sequence_iff (s : Sequence) :
    feedAll {} s.bytes = (s.key.toList, {}) ↔ s.Separated := by
  unfold Sequence.Separated
  by_cases first : s.first = []
  · by_cases others : s.others = []
    · refine iff_of_true ?_ (Or.inl others)
      rcases s with ⟨first', others', final, isFinal⟩
      dsimp only at first others
      subst first others
      have fed : decoderFeed ⟨.csi, 0, 0⟩ final =
          ((if final = 126 then tildeKey 0 else letterKey final).toList, {}) := by
        change (if 48 ≤ final ∧ final ≤ 57 then _ else _) = _
        rw [if_neg isFinal.1]
        rfl
      have opened : feedAll {} (0x1B :: 91 :: [final]) = feedAll ⟨.csi, 0, 0⟩ [final] := rfl
      change feedAll {} (0x1B :: 91 :: [final]) = _
      rw [opened, feedAll, fed]
      exact Prod.ext (List.append_nil _) rfl
    · exact iff_of_false (feedAll_others_only s first others)
        (fun separated => separated.elim others fun given => given.1 first)
  · rw [feedAll_first s first, Prod.mk.injEq, and_iff_left rfl]
    unfold Sequence.key
    by_cases tilde : s.final = 126
    · have same (a b : Option Nat) : a.toList = b.toList ↔ a = b := by
        cases a <;> cases b <;> simp
      rw [if_pos tilde, if_pos tilde, same]
      by_cases digits : s.others.flatten = []
      · rw [digits, List.append_nil]
        exact iff_of_true rfl (Or.inr ⟨first, fun _ => Or.inl rfl⟩)
      · have number : numberFrom 0 (s.first ++ s.others.flatten) =
            numberFrom (numberFrom 0 s.first) s.others.flatten := List.foldl_append
        rw [number, tildeKey_digits digits]
        constructor
        · intro both
          exact Or.inr ⟨first, fun _ => Or.inr both⟩
        · rintro (none_ | ⟨-, given⟩)
          · rw [none_] at digits
            exact absurd rfl digits
          · exact (given tilde).resolve_left digits
    · rw [if_neg tilde, if_neg tilde]
      exact iff_of_true rfl (Or.inr ⟨first, fun ends => absurd ends tilde⟩)

/-! ## Streams of items -/

def Item.Separated : Item → Prop
  | .csi s => s.Separated
  | _ => True

theorem item_iff (item : Item) :
    feedAll {} item.bytes = (item.keys, {}) ↔ item.Separated := by
  cases item with
  | plain b outside =>
      refine iff_of_true ?_ trivial
      exact feedAll_plain [b] fun b' there => (List.mem_singleton.mp there) ▸ outside
  | csi s => exact sequence_iff s
  | ss3 final =>
      refine iff_of_true ?_ trivial
      have fed : decoderFeed ⟨.ss3, 0, 0⟩ final =
          ((if final = 126 then tildeKey 0 else letterKey final).toList, {}) := rfl
      have same : (if final = 126 then tildeKey 0 else letterKey final) = letterKey final := by
        split_ifs with tilde
        · rw [tilde]
          rfl
        · rfl
      rw [same] at fed
      change feedAll ⟨.ss3, 0, 0⟩ [final] = _
      rw [feedAll, fed]
      exact Prod.ext (List.append_nil _) rfl

/-- Every first part of a list of items is decoded as it is meant if each item is. -/
theorem feedAll_items (items : List Item) :
    (∀ n, feedAll {} ((items.take n).flatMap Item.bytes) =
      ((items.take n).flatMap Item.keys, {})) ↔
      ∀ item ∈ items, feedAll {} item.bytes = (item.keys, {}) := by
  constructor
  · intro decodes item there
    rcases List.mem_iff_getElem.mp there with ⟨n, inside, rfl⟩
    have before := decodes n
    have after := decodes (n + 1)
    rw [List.take_succ_eq_append_getElem inside, List.flatMap_append, List.flatMap_append,
      feedAll_append, before] at after
    dsimp only at after
    rw [List.flatMap_singleton, List.flatMap_singleton] at after
    have keys := List.append_cancel_left (Prod.mk.inj after).1
    exact Prod.ext keys (Prod.mk.inj after).2
  · intro each n
    have each' : ∀ item ∈ items.take n, feedAll {} item.bytes = (item.keys, {}) :=
      fun item there => each item (List.mem_of_mem_take there)
    generalize items.take n = some_ at each'
    induction some_ with
    | nil => rfl
    | cons item rest known =>
        rw [List.flatMap_cons, List.flatMap_cons, feedAll_append,
          each' item List.mem_cons_self]
        dsimp only
        rw [known fun item there => each' item (List.mem_cons_of_mem _ there)]

/-- A stream is decoded as it is meant, however its bytes come, exactly if its sequences are. -/
theorem decodesAlways_separated (items : List Item) :
    DecodesAlways items ↔ ∀ s, Item.csi s ∈ items → s.Separated := by
  rw [decodesAlways_iff, feedAll_items]
  constructor
  · intro each s there
    exact (item_iff (.csi s)).mp (each _ there)
  · intro separated item there
    rw [item_iff]
    cases item with
    | csi s => exact separated s there
    | plain b outside => trivial
    | ss3 final => trivial

/-- `ESC [ 3 ; 5 ~` has no key, and `ESC [ 3 ~` is that of `KEY_DELETE`. -/
theorem decodesAlways_fails : ¬∀ items, DecodesAlways items := by
  intro promise
  have promised := promise [.csi ⟨[3], [[5]], 126, by decide⟩] 1
    (oneByOne [0x1B, 91, 51, 59, 53, 126]) rfl rfl
  exact absurd promised.1 (by decide)

end Serial

end Trinux
