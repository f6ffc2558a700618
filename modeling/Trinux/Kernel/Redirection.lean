import Trinux.Lib.Machine
import Trinux.Shell.Editor

namespace Trinux

open ArrayShift

/-!
# Redirected input and output

What a program prints is captured for a file by `SYS_SPAWN_R` and for the next stage of a pipeline
by the shell of the kernel; what it reads can come from a file.  There is one capture and one
redirection of the keyboard in the kernel, whatever runs inside of what, and the arrays of both are
static.
-/

namespace Redirection

/-! ## The variables of the kernel -/

/-- The static arrays: `cap` and `stdin_buf` of `SYS_SPAWN_R`, the others of `run_pipeline`. -/
inductive Buffer where
  | cap | stdinBuf | bufA | bufB | redirIn
deriving DecidableEq

def capSize : Nat := 16384

def stdinBufSize : Nat := 4096

def pipeBuf : Nat := 8192

/-- The static variables for the capture, for the path of the output and for the override of the
keyboard. -/
structure Globals where
  mem : Buffer → Nat → UInt8
  captureBuf : Option Buffer
  captureCap : Nat
  captureLen : Nat
  kOutpath : List UInt8
  stdinOverride : Bool
  overrideLen : Nat
  overridePos : Nat

namespace Globals

def store (g : Globals) (b : Buffer) (i : Nat) (c : UInt8) : Globals :=
  { g with mem := Function.update g.mem b (Function.update (g.mem b) i c) }

def readInto (g : Globals) (b : Buffer) (bytes : List UInt8) : Globals :=
  { g with
    mem := Function.update g.mem b
      (copyCells (g.mem b) 0 (fun i => bytes.getD i 0) 0 bytes.length) }

def vgaCaptureBegin (g : Globals) (b : Buffer) (cap : Nat) : Globals :=
  { g with captureBuf := some b, captureCap := cap, captureLen := 0 }

def vgaCaptureEnd (g : Globals) : Nat × Globals :=
  let ended := match g.captureBuf with
    | some b => if g.captureLen < g.captureCap then g.store b g.captureLen 0 else g
    | none => g
  (g.captureLen, { ended with captureBuf := none, captureCap := 0, captureLen := 0 })

def vgaPutchar (g : Globals) (c : UInt8) : Globals :=
  match g.captureBuf with
  | some b =>
      if g.captureLen + 1 < g.captureCap then
        { g.store b g.captureLen c with captureLen := g.captureLen + 1 }
      else g
  | none => g

def keyboardSetStdinOverride (g : Globals) (len : Nat) : Globals :=
  { g with stdinOverride := true, overrideLen := len, overridePos := 0 }

def keyboardClearStdinOverride (g : Globals) : Globals :=
  { g with stdinOverride := false, overrideLen := 0, overridePos := 0 }

def keyboardGetchar (g : Globals) (key : Int) : Int × Globals :=
  if g.stdinOverride = true ∧ g.overridePos < g.overrideLen then
    (((g.mem .stdinBuf g.overridePos).toNat : Int), { g with overridePos := g.overridePos + 1 })
  else (key, g)

/-- What `keyboard_readline` does with a key: whether the line ends, the line, and what it prints. -/
def readlineKey (maxLen : Int) (key : Int) (line : List UInt8) (g : Globals) :
    Bool × List UInt8 × Globals :=
  if key = 10 then (true, line, g.vgaPutchar 10)
  else if key = 8 then
    if line = [] then (false, line, g) else (false, line.dropLast, g.vgaPutchar 8)
  else if 32 ≤ key ∧ key < 127 then
    if (line.length : Int) < maxLen - 1 then
      (false, line ++ [UInt8.ofNat key.toNat], g.vgaPutchar (UInt8.ofNat key.toNat))
    else (false, line, g)
  else (false, line, g)

/-- The loop of `keyboard_readline`, with the keys of the keyboard.  Without a further key it waits. -/
def readlineLoop (maxLen : Int) : (fuel : Nat) → (keys : List Int) → (line : List UInt8) → Globals →
    List UInt8 × Globals
  | 0, _, line, g => (line, g)
  | fuel + 1, keys, line, g =>
      if g.stdinOverride = true ∧ g.overridePos < g.overrideLen then
        let got := g.keyboardGetchar 0
        match readlineKey maxLen got.1 line got.2 with
        | (true, line, g) => (line, g)
        | (false, line, g) => readlineLoop maxLen fuel keys line g
      else
        match keys with
        | [] => (line, g)
        | key :: keys =>
            match readlineKey maxLen key line g with
            | (true, line, g) => (line, g)
            | (false, line, g) => readlineLoop maxLen fuel keys line g

def keyboardReadline (g : Globals) (maxLen : Int) (keys : List Int) : List UInt8 × Globals :=
  readlineLoop maxLen (g.overrideLen - g.overridePos + keys.length) keys [] g

end Globals

/-! ## Runs of programs -/

structure SpawnReq where
  stdoutPath : Option (List UInt8)
  stdinPath : Option (List UInt8)
  append : Bool

/-- A stage of a pipeline that runs: `last`, `out`, and `pipe_in` with its length. -/
structure Stage where
  last : Bool
  out : Buffer
  pipeIn : Option (Buffer × Nat)

/-- What a run whose output is redirected has written, and the size of its array. -/
structure Output where
  size : Nat
  written : List UInt8

/-- The bytes of the file that a run reads from, and how many of them it has read. -/
structure Input where
  bytes : List UInt8
  count : Nat

inductive Observed where
  | char (c : Option Int)
  | file (bytes : List UInt8)
deriving DecidableEq

/-- The kernel, the calls of `SYS_SPAWN_R` that have not returned, the innermost one first, the
stage of the pipeline and the input of the next one.  The fields from `outs` on are of the model
only: what the runs have written and read, the innermost one first, what the next stage should be
fed with, what this stage should read, and what has been observed, with what should have been. -/
structure State where
  kernel : Globals
  files : Nat → List UInt8
  calls : List SpawnReq
  stage : Option Stage
  curIn : Option (Buffer × Nat)
  outs : List Output
  ins : List (Option Input)
  fed : Option (List UInt8)
  stageIn : Option (List UInt8)
  log : List (Observed × Observed)

/-- What happens: a call of `SYS_SPAWN_R` and its return, a line for the shell of the kernel, a
stage of its pipeline with the file that `<` names, a byte that the running program writes, one
that somebody else prints, the reading of a key, of a line and of the input of a stage, and a change
of a file.  With `got` and `stored` come how many bytes `vfs_read` delivers at most and `vfs_write`
stores at most: a sector may fail, and the medium may be full. -/
inductive Event where
  | spawn (req : SpawnReq) (resolve : List UInt8 → Option Nat) (got : Nat)
  | exit (create : List UInt8 → Option Nat) (stored : Nat)
  | line
  | stage (i : Nat) (last : Bool) (redir : Option Nat) (got : Nat)
  | stageEnd
  | write (c : UInt8)
  | message (c : UInt8)
  | getc (key : Int)
  | getline (maxLen : Int) (keys : List Int)
  | readPipe (i : Nat)
  | change (node : Nat) (bytes : List UInt8)

def vfsWrite (stored : Nat) (file : List UInt8) (offset : Nat) (bytes : List UInt8) : List UInt8 :=
  file.take offset ++ bytes.take stored ++ file.drop (offset + min stored bytes.length)

/-- The part of `SYS_SPAWN_R` for the redirected input.  The result of `vfs_read` is not used. -/
def spawnStdin (g : Globals) (files : Nat → List UInt8) (resolve : List UInt8 → Option Nat)
    (got : Nat) : Option (List UInt8) → Globals
  | some path =>
      match resolve (path.take 127) with
      | some node =>
          let stdinLen := min (files node).length stdinBufSize
          (g.readInto .stdinBuf ((files node).take (min stdinLen got))).keyboardSetStdinOverride
            stdinLen
      | none => g
  | none => g

def spawnEnter (g : Globals) (files : Nat → List UInt8) (req : SpawnReq)
    (resolve : List UInt8 → Option Nat) (got : Nat) : Globals :=
  match req.stdoutPath with
  | some path =>
      (spawnStdin { g with kOutpath := path.take 127 } files resolve got
        req.stdinPath).vgaCaptureBegin .cap capSize
  | none => spawnStdin g files resolve got req.stdinPath

def leaveStdout (g : Globals) (files : Nat → List UInt8) (req : SpawnReq)
    (create : List UInt8 → Option Nat) (stored : Nat) : Globals × (Nat → List UInt8) :=
  match req.stdoutPath with
  | some _ =>
      let bytes := front (g.vgaCaptureEnd.2.mem .cap) g.vgaCaptureEnd.1
      (g.vgaCaptureEnd.2,
        match create g.kOutpath with
        | some node => Function.update files node
            (if req.append then vfsWrite stored (files node) (files node).length bytes
            else vfsWrite stored [] 0 bytes)
        | none => files)
  | none => (g, files)

def leaveStdin (g : Globals) (req : SpawnReq) : Globals :=
  if req.stdinPath.isSome then g.keyboardClearStdinOverride else g

def spawnLeave (g : Globals) (files : Nat → List UInt8) (req : SpawnReq)
    (create : List UInt8 → Option Nat) (stored : Nat) : Globals × (Nat → List UInt8) :=
  let left := leaveStdout g files req create stored
  (leaveStdin left.1 req, left.2)

def stageOut (i : Nat) : Buffer := if i % 2 = 1 then .bufB else .bufA

def redirect (g : Globals) (files : Nat → List UInt8) (curIn : Option (Buffer × Nat))
    (redir : Option Nat) (got : Nat) : Globals × Option (Buffer × Nat) :=
  match curIn, redir with
  | none, some node =>
      let n := min (min (files node).length (pipeBuf - 1)) got
      ((g.readInto .redirIn ((files node).take n)).store .redirIn n 0, some (.redirIn, n))
  | _, _ => (g, curIn)

def pipeByte (mem : Buffer → Nat → UInt8) (pipeIn : Option (Buffer × Nat)) (i : Nat) :
    Option UInt8 :=
  pipeIn.bind fun input => if i < input.2 then some (mem input.1 i) else none

namespace State

def wrote (outs : List Output) (c : UInt8) : List Output :=
  match outs with
  | out :: others => { out with written := out.written ++ [c] } :: others
  | [] => []

def step (s : State) : Event → State
  | .spawn req resolve got =>
      { s with
        kernel := spawnEnter s.kernel s.files req resolve got
        calls := req :: s.calls
        outs := if req.stdoutPath.isSome then ⟨capSize, []⟩ :: s.outs else s.outs
        ins := match req.stdinPath with
          | some path => ((resolve path).map fun node => ⟨s.files node, 0⟩) :: s.ins
          | none => s.ins }
  | .exit create stored =>
      match s.calls with
      | [] => s
      | req :: calls =>
          let left := spawnLeave s.kernel s.files req create stored
          let written := (s.outs.head?.map Output.written).getD []
          { s with
            kernel := left.1
            files := left.2
            calls := calls
            outs := if req.stdoutPath.isSome then s.outs.tail else s.outs
            ins := if req.stdinPath.isSome then s.ins.tail else s.ins
            log := match req.stdoutPath.bind create with
              | some node =>
                  (.file ((if req.append then s.files node else []) ++ written),
                    .file (left.2 node)) :: s.log
              | none => s.log }
  | .line => if s.stage.isNone then { s with curIn := none, fed := none } else s
  | .stage i last redir got =>
      if s.stage.isNone ∧ s.calls = [] then
        let fed := redirect s.kernel s.files s.curIn redir got
        { s with
          kernel := if last then fed.1 else fed.1.vgaCaptureBegin (stageOut i) pipeBuf
          stage := some ⟨last, stageOut i, fed.2⟩
          outs := if last then s.outs else ⟨pipeBuf, []⟩ :: s.outs
          stageIn := s.fed.or (redir.map s.files) }
      else s
  | .stageEnd =>
      match s.stage, s.calls with
      | some stage, [] =>
          if stage.last then { s with stage := none, curIn := none, fed := none }
          else
            { s with
              kernel := s.kernel.vgaCaptureEnd.2
              stage := none
              curIn := some (stage.out, s.kernel.vgaCaptureEnd.1)
              fed := some ((s.outs.head?.map Output.written).getD [])
              outs := s.outs.tail }
      | _, _ => s
  | .write c => { s with kernel := s.kernel.vgaPutchar c, outs := wrote s.outs c }
  | .message c => { s with kernel := s.kernel.vgaPutchar c }
  | .getc key =>
      let got := s.kernel.keyboardGetchar key
      match s.ins with
      | some input :: others =>
          { s with
            kernel := got.2
            ins := some { input with count := input.count + 1 } :: others
            log := (.char (input.bytes[input.count]?.map fun c => (c.toNat : Int)),
              .char (some got.1)) :: s.log }
      | _ => { s with kernel := got.2 }
  | .getline maxLen keys =>
      let got := s.kernel.keyboardReadline maxLen keys
      match s.ins with
      | some input :: others =>
          let taken := got.2.overridePos - s.kernel.overridePos
          { s with
            kernel := got.2
            ins := some { input with count := input.count + taken } :: others
            log := (.file ((input.bytes.drop input.count).take taken), .file got.1) :: s.log }
      | _ => { s with kernel := got.2 }
  | .readPipe i =>
      match s.stage with
      | some stage =>
          { s with
            log := (.char ((s.stageIn.bind fun bytes => bytes[i]?).map fun c => (c.toNat : Int)),
              .char ((pipeByte s.kernel.mem stage.pipeIn i).map fun c => (c.toNat : Int))) ::
                s.log }
      | none => s
  | .change node bytes => { s with files := Function.update s.files node bytes }

def start (mem : Buffer → Nat → UInt8) (kOutpath : List UInt8) (files : Nat → List UInt8) : State :=
  { kernel := ⟨mem, none, 0, 0, kOutpath, false, 0, 0⟩
    files := files, calls := [], stage := none, curIn := none
    outs := [], ins := [], fed := none, stageIn := none, log := [] }

/-- What has been read and stored is what should have been, and what the innermost run whose output
is redirected has written so far has been captured. -/
structure Faithful (s : State) : Prop where
  observed : ∀ seen ∈ s.log, seen.1 = seen.2
  captured : ∀ out ∈ s.outs.head?, ∃ b, s.kernel.captureBuf = some b ∧
    front (s.kernel.mem b) s.kernel.captureLen = out.written

/-- A redirection does not run inside of one of the same kind and names files with short paths, no
file comes short when it is read or written, nothing is written, printed or read for which the arrays
have no room, and lines are read from the keyboard and while nothing is captured: their bytes are
filtered and printed. -/
def Allowed (s : State) : Event → Prop
  | .spawn req resolve got =>
      (∀ path ∈ req.stdoutPath, path.length ≤ 127 ∧ s.outs = []) ∧
      (∀ path ∈ req.stdinPath, path.length ≤ 127 ∧ s.ins = [] ∧
        ∀ node ∈ resolve path, min (s.files node).length stdinBufSize ≤ got)
  | .exit _ stored => ∀ out ∈ s.outs.head?, out.written.length ≤ stored
  | .stage i last redir got =>
      (last = false → ∀ input ∈ s.curIn, input.1 ≠ stageOut i) ∧
      (s.fed = none → ∀ node ∈ redir, (s.files node).length < pipeBuf ∧
        (s.files node).length ≤ got)
  | .write _ => ∀ out ∈ s.outs.head?, out.written.length + 1 < out.size
  | .message _ => s.outs = []
  | .getc _ => ∀ input, s.ins.head? = some (some input) →
      input.count < input.bytes.length ∧ input.count < stdinBufSize
  | .getline _ _ => s.outs = [] ∧ ∀ input, s.ins.head? ≠ some (some input)
  | _ => True

end State

/-! ## The capture -/

structure Keeps (b : Buffer) (g g' : Globals) : Prop where
  mem : ∀ b', b' ≠ b → g'.mem b' = g.mem b'
  kOutpath : g'.kOutpath = g.kOutpath
  stdinOverride : g'.stdinOverride = g.stdinOverride
  overrideLen : g'.overrideLen = g.overrideLen
  overridePos : g'.overridePos = g.overridePos

/-- The capture holds what has been written in an array with room for one byte more. -/
structure Captures (g : Globals) (b : Buffer) (size : Nat) (written : List UInt8) : Prop where
  captureBuf : g.captureBuf = some b
  captureCap : g.captureCap = size
  captureLen : g.captureLen = written.length
  room : written.length < size
  bytes : front (g.mem b) written.length = written

namespace Captures

variable {g : Globals} {b : Buffer} {size : Nat} {written : List UInt8}

theorem begin (g : Globals) (b : Buffer) (positive : 0 < size) :
    Captures (g.vgaCaptureBegin b size) b size [] :=
  ⟨rfl, rfl, rfl, positive, rfl⟩

theorem putchar (captures : Captures g b size written) (room : written.length + 1 < size)
    (c : UInt8) :
    Captures (g.vgaPutchar c) b size (written ++ [c]) ∧ Keeps b g (g.vgaPutchar c) := by
  have stored : g.vgaPutchar c =
      { g.store b written.length c with captureLen := written.length + 1 } := by
    rw [Globals.vgaPutchar, captures.captureBuf]
    dsimp only
    rw [captures.captureLen, captures.captureCap, if_pos room]
  rw [stored]
  refine ⟨⟨captures.captureBuf, captures.captureCap, ?_, ?_, ?_⟩, ?_, rfl, rfl, rfl, rfl⟩
  · simp
  · simpa using room
  · rw [List.length_append, List.length_singleton, front_succ]
    simp only [Globals.store, Function.update_self]
    congr 1
    refine Eq.trans (front_congr fun i inside => ?_) captures.bytes
    rw [Function.update_of_ne (Nat.ne_of_lt inside)]
  · intro b' other
    exact Function.update_of_ne other _ _

theorem end_ (captures : Captures g b size written) :
    g.vgaCaptureEnd.1 = written.length ∧ g.vgaCaptureEnd.2.captureBuf = none ∧
      front (g.vgaCaptureEnd.2.mem b) written.length = written ∧
      Keeps b g g.vgaCaptureEnd.2 := by
  have ended : g.vgaCaptureEnd = (written.length,
      { g.store b written.length 0 with
        captureBuf := none, captureCap := 0, captureLen := 0 }) := by
    rw [Globals.vgaCaptureEnd, captures.captureBuf]
    dsimp only
    rw [captures.captureLen, captures.captureCap, if_pos captures.room]
  rw [ended]
  refine ⟨rfl, rfl, ?_, ?_, rfl, rfl, rfl, rfl⟩
  · simp only [Globals.store, Function.update_self]
    refine Eq.trans (front_congr fun i inside => ?_) captures.bytes
    rw [Function.update_of_ne (Nat.ne_of_lt inside)]
  · intro b' other
    exact Function.update_of_ne other _ _

end Captures

/-! ## The invariant -/

def outCalls (calls : List SpawnReq) : List SpawnReq := calls.filter (·.stdoutPath.isSome)

def inCalls (calls : List SpawnReq) : List SpawnReq := calls.filter (·.stdinPath.isSome)

inductive OutInvariant (g : Globals) (calls : List SpawnReq) (stage : Option Stage) :
    List Output → Prop
  | none (outside : outCalls calls = []) (off : g.captureBuf = none)
      (last : ∀ st ∈ stage, st.last = true) : OutInvariant g calls stage []
  | call (req : SpawnReq) (written : List UInt8) (inside : outCalls calls = [req])
      (path : req.stdoutPath = some g.kOutpath) (last : ∀ st ∈ stage, st.last = true)
      (captures : Captures g .cap capSize written) :
      OutInvariant g calls stage [⟨capSize, written⟩]
  | stage (st : Stage) (written : List UInt8) (outside : outCalls calls = [])
      (runs : stage = some st) (last : st.last = false)
      (captures : Captures g st.out pipeBuf written) :
      OutInvariant g calls stage [⟨pipeBuf, written⟩]

/-- At most one run has redirected input, and the keyboard is overridden by what it has not read
yet. -/
inductive InInvariant (g : Globals) (calls : List SpawnReq) : List (Option Input) → Prop
  | none (outside : inCalls calls = []) (off : g.stdinOverride = false) : InInvariant g calls []
  | missing (req : SpawnReq) (inside : inCalls calls = [req]) (off : g.stdinOverride = false) :
      InInvariant g calls [Option.none]
  | file (req : SpawnReq) (input : Input) (inside : inCalls calls = [req])
      (on : g.stdinOverride = true)
      (len : g.overrideLen = min input.bytes.length stdinBufSize)
      (pos : g.overridePos = input.count)
      (bytes : front (g.mem .stdinBuf) g.overrideLen = input.bytes.take g.overrideLen) :
      InInvariant g calls [some input]

inductive Feeds (mem : Buffer → Nat → UInt8) :
    Option (Buffer × Nat) → Option (List UInt8) → Prop
  | nothing : Feeds mem none none
  | bytes (b : Buffer) (text : List UInt8) (shows : front (mem b) text.length = text)
      (other : b ≠ .cap) (other' : b ≠ .stdinBuf) : Feeds mem (some (b, text.length)) (some text)

/-- The input of the stage that runs, or of the next one, is what it should be. -/
structure PipeInvariant (mem : Buffer → Nat → UInt8) (stage : Option Stage)
    (curIn : Option (Buffer × Nat)) (fed stageIn : Option (List UInt8)) : Prop where
  between : stage = none → Feeds mem curIn fed
  during : ∀ st ∈ stage, Feeds mem st.pipeIn stageIn
  apart : ∀ st ∈ stage, st.last = false → ∀ input ∈ st.pipeIn, input.1 ≠ st.out
  out : ∀ st ∈ stage, st.out = .bufA ∨ st.out = .bufB

structure Invariant (s : State) : Prop where
  observed : ∀ seen ∈ s.log, seen.1 = seen.2
  out : OutInvariant s.kernel s.calls s.stage s.outs
  input : InInvariant s.kernel s.calls s.ins
  pipe : PipeInvariant s.kernel.mem s.stage s.curIn s.fed s.stageIn

theorem Feeds.congr {mem mem' : Buffer → Nat → UInt8} {input : Option (Buffer × Nat)}
    {text : Option (List UInt8)} (feeds : Feeds mem input text)
    (same : ∀ b n, input = some (b, n) → b ≠ .cap → b ≠ .stdinBuf → mem' b = mem b) :
    Feeds mem' input text := by
  cases feeds with
  | nothing => exact .nothing
  | bytes b text shows other other' =>
      refine .bytes b text ?_ other other'
      rw [same b _ rfl other other']
      exact shows

theorem Feeds.read {mem : Buffer → Nat → UInt8} {input : Option (Buffer × Nat)}
    {text : Option (List UInt8)} (feeds : Feeds mem input text) (i : Nat) :
    (text.bind fun bytes => bytes[i]?) = pipeByte mem input i := by
  cases feeds with
  | nothing => rfl
  | bytes b text shows other other' =>
      have same := congrArg (fun list => list[i]?) shows
      rw [front_getElem?] at same
      exact same.symm

theorem PipeInvariant.congr {mem mem' : Buffer → Nat → UInt8} {stage : Option Stage}
    {curIn : Option (Buffer × Nat)} {fed stageIn : Option (List UInt8)}
    (pipe : PipeInvariant mem stage curIn fed stageIn)
    (same : ∀ b, b ≠ .cap → b ≠ .stdinBuf → (∀ st ∈ stage, st.last = false → b ≠ st.out) →
      mem' b = mem b) : PipeInvariant mem' stage curIn fed stageIn := by
  refine ⟨fun none_ => (pipe.between none_).congr fun b n _ other other' => ?_,
    fun st runs => (pipe.during st runs).congr fun b n input other other' => ?_, pipe.apart,
    pipe.out⟩
  · exact same b other other' fun st runs => by simp [none_] at runs
  · refine same b other other' fun st' runs' last => ?_
    have one : st' = st := Option.some.inj (runs'.symm.trans runs)
    rw [one]
    exact pipe.apart st runs (one ▸ last) (b, n) input

theorem InInvariant.congr {g g' : Globals} {calls calls' : List SpawnReq}
    {ins : List (Option Input)} (input : InInvariant g calls ins)
    (same : inCalls calls' = inCalls calls) (mem : g'.mem .stdinBuf = g.mem .stdinBuf)
    (stdinOverride : g'.stdinOverride = g.stdinOverride)
    (overrideLen : g'.overrideLen = g.overrideLen) (overridePos : g'.overridePos = g.overridePos) :
    InInvariant g' calls' ins := by
  cases input with
  | none outside off => exact .none (same.trans outside) (stdinOverride.trans off)
  | missing req inside off => exact .missing req (same.trans inside) (stdinOverride.trans off)
  | file req input inside on len pos bytes =>
      refine .file req input (same.trans inside) (stdinOverride.trans on) (overrideLen.trans len)
        (overridePos.trans pos) ?_
      rw [mem, overrideLen]
      exact bytes

theorem OutInvariant.congr {g g' : Globals} {calls calls' : List SpawnReq} {stage : Option Stage}
    {outs : List Output} (out : OutInvariant g calls stage outs)
    (same : outCalls calls' = outCalls calls) (captureBuf : g'.captureBuf = g.captureBuf)
    (captureCap : g'.captureCap = g.captureCap) (captureLen : g'.captureLen = g.captureLen)
    (kOutpath : g'.kOutpath = g.kOutpath)
    (mem : ∀ b, b = .cap ∨ (∃ st, stage = some st ∧ b = st.out) → g'.mem b = g.mem b) :
    OutInvariant g' calls' stage outs := by
  cases out with
  | none outside off last => exact .none (same.trans outside) (captureBuf.trans off) last
  | call req written inside path last captures =>
      refine .call req written (same.trans inside) (path.trans (congrArg some kOutpath.symm)) last
        ⟨captureBuf.trans captures.captureBuf, captureCap.trans captures.captureCap,
          captureLen.trans captures.captureLen, captures.room, ?_⟩
      rw [mem .cap (Or.inl rfl)]
      exact captures.bytes
  | stage st written outside runs last captures =>
      refine .stage st written (same.trans outside) runs last
        ⟨captureBuf.trans captures.captureBuf, captureCap.trans captures.captureCap,
          captureLen.trans captures.captureLen, captures.room, ?_⟩
      rw [mem st.out (Or.inr ⟨st, runs, rfl⟩)]
      exact captures.bytes

/-- The array of a stage is none of those of `SYS_SPAWN_R`. -/
theorem PipeInvariant.out_ne {mem : Buffer → Nat → UInt8} {stage : Option Stage}
    {curIn : Option (Buffer × Nat)} {fed stageIn : Option (List UInt8)}
    (pipe : PipeInvariant mem stage curIn fed stageIn) {st : Stage} (runs : stage = some st) :
    st.out ≠ .cap ∧ st.out ≠ .stdinBuf := by
  rcases pipe.out st runs with out | out <;> rw [out] <;> decide

theorem Invariant.faithful {s : State} (holds : Invariant s) : s.Faithful := by
  refine ⟨holds.observed, fun out inside => ?_⟩
  have captured := holds.out
  generalize s.outs = outs at captured inside
  cases captured with
  | none => cases inside
  | call req written _ _ _ captures =>
      obtain rfl := Option.some.inj inside
      refine ⟨_, captures.captureBuf, ?_⟩
      rw [captures.captureLen]
      exact captures.bytes
  | stage st written _ _ _ captures =>
      obtain rfl := Option.some.inj inside
      refine ⟨_, captures.captureBuf, ?_⟩
      rw [captures.captureLen]
      exact captures.bytes

/-! ## The beginning and the end of a call -/

theorem readInto_front (g : Globals) (b : Buffer) (bytes : List UInt8) :
    front ((g.readInto b bytes).mem b) bytes.length = bytes := by
  apply List.ext_getElem?
  intro i
  rw [front_getElem?]
  by_cases inside : i < bytes.length
  · rw [if_pos inside, Globals.readInto]
    dsimp only
    rw [Function.update_self, copyCells, if_pos (by omega), Nat.sub_zero, Nat.zero_add,
      List.getD_eq_getElem _ _ inside, List.getElem?_eq_getElem inside]
  · rw [if_neg inside, List.getElem?_eq_none (Nat.not_lt.mp inside)]

structure SameCapture (g g' : Globals) : Prop where
  captureBuf : g'.captureBuf = g.captureBuf
  captureCap : g'.captureCap = g.captureCap
  captureLen : g'.captureLen = g.captureLen
  kOutpath : g'.kOutpath = g.kOutpath
  mem : ∀ b, b ≠ .stdinBuf → g'.mem b = g.mem b

theorem spawnStdin_capture (g : Globals) (files : Nat → List UInt8)
    (resolve : List UInt8 → Option Nat) (got : Nat) (path : Option (List UInt8)) :
    SameCapture g (spawnStdin g files resolve got path) := by
  cases path with
  | none => exact ⟨rfl, rfl, rfl, rfl, fun _ _ => rfl⟩
  | some path =>
      rw [spawnStdin]
      cases resolve (path.take 127) with
      | none => exact ⟨rfl, rfl, rfl, rfl, fun _ _ => rfl⟩
      | some node => exact ⟨rfl, rfl, rfl, rfl, fun b other => Function.update_of_ne other _ _⟩

/-- The input of a call is redirected, if that of no other call is. -/
theorem InInvariant.spawn {g : Globals} {calls : List SpawnReq} {ins : List (Option Input)}
    (input : InInvariant g calls ins) (files : Nat → List UInt8) (req : SpawnReq)
    (resolve : List UInt8 → Option Nat) (got : Nat)
    (allowed : ∀ path ∈ req.stdinPath, path.length ≤ 127 ∧ ins = [] ∧
      ∀ node ∈ resolve path, min (files node).length stdinBufSize ≤ got) :
    InInvariant (spawnStdin g files resolve got req.stdinPath) (req :: calls)
      (match req.stdinPath with
        | some path => ((resolve path).map fun node => ⟨files node, 0⟩) :: ins
        | Option.none => ins) := by
  cases asked : req.stdinPath with
  | none =>
      have same : inCalls (req :: calls) = inCalls calls :=
        List.filter_cons_of_neg (by simp [asked])
      exact input.congr same rfl rfl rfl rfl
  | some path =>
      obtain ⟨short, rfl, whole⟩ := allowed path asked
      have inside : inCalls (req :: calls) = req :: inCalls calls :=
        List.filter_cons_of_pos (by simp [asked])
      cases input with
      | none outside off =>
          rw [outside] at inside
          rw [spawnStdin, List.take_of_length_le short]
          dsimp only
          cases resolved : resolve path with
          | none => exact .missing req inside off
          | some node =>
              dsimp only
              rw [Nat.min_eq_left (whole node resolved)]
              refine .file req ⟨files node, 0⟩ inside rfl rfl rfl ?_
              have shows := readInto_front g .stdinBuf
                ((files node).take (min (files node).length stdinBufSize))
              rw [List.length_take, Nat.min_eq_left (Nat.min_le_left _ _)] at shows
              exact shows

theorem leaveStdin_capture (g : Globals) (req : SpawnReq) : SameCapture g (leaveStdin g req) := by
  rw [leaveStdin]
  cases req.stdinPath.isSome <;> exact ⟨rfl, rfl, rfl, rfl, fun _ _ => rfl⟩

theorem leaveStdin_mem (g : Globals) (req : SpawnReq) : (leaveStdin g req).mem = g.mem := by
  rw [leaveStdin]
  cases req.stdinPath.isSome <;> rfl

theorem InInvariant.leave {g : Globals} {req : SpawnReq} {calls : List SpawnReq}
    {ins : List (Option Input)} (input : InInvariant g (req :: calls) ins) :
    InInvariant (leaveStdin g req) calls (if req.stdinPath.isSome then ins.tail else ins) := by
  rw [leaveStdin]
  by_cases asked : req.stdinPath.isSome = true
  · have inside : inCalls (req :: calls) = req :: inCalls calls := List.filter_cons_of_pos asked
    rw [if_pos asked, if_pos asked]
    cases input with
    | none outside off =>
        rw [inside] at outside
        cases outside
    | missing req' inside' off =>
        rw [inside] at inside'
        exact .none (List.cons.inj inside').2 rfl
    | file req' input inside' on len pos bytes =>
        rw [inside] at inside'
        exact .none (List.cons.inj inside').2 rfl
  · have same : inCalls (req :: calls) = inCalls calls := List.filter_cons_of_neg asked
    rw [if_neg asked, if_neg asked]
    exact input.congr same.symm rfl rfl rfl rfl

theorem redirect_feeds {g : Globals} {curIn : Option (Buffer × Nat)} {fed : Option (List UInt8)}
    (feeds : Feeds g.mem curIn fed) (files : Nat → List UInt8) (redir : Option Nat) (got : Nat)
    (fits : fed = none → ∀ node ∈ redir, (files node).length < pipeBuf ∧
      (files node).length ≤ got) :
    Feeds (redirect g files curIn redir got).1.mem (redirect g files curIn redir got).2
      (fed.or (redir.map files)) ∧
      Keeps .redirIn g (redirect g files curIn redir got).1 ∧
      (redirect g files curIn redir got).1.captureBuf = g.captureBuf ∧
      ∀ input ∈ (redirect g files curIn redir got).2, curIn = some input ∨ input.1 = .redirIn := by
  cases feeds with
  | bytes b text shows other other' =>
      exact ⟨.bytes b text shows other other', ⟨fun _ _ => rfl, rfl, rfl, rfl, rfl⟩, rfl,
        fun _ there => Or.inl there⟩
  | nothing =>
      cases redir with
      | none =>
          exact ⟨.nothing, ⟨fun _ _ => rfl, rfl, rfl, rfl, rfl⟩, rfl,
            fun _ there => by cases there⟩
      | some node =>
          obtain ⟨inside, whole⟩ := fits rfl node rfl
          have short : min (min (files node).length (pipeBuf - 1)) got = (files node).length := by
            rw [Nat.min_eq_left (Nat.le_sub_one_of_lt inside), Nat.min_eq_left whole]
          simp only [redirect, short, List.take_length, Option.map_some]
          refine ⟨.bytes .redirIn (files node) ?_ (by decide) (by decide),
            ⟨fun b other => ?_, rfl, rfl, rfl, rfl⟩, rfl, fun input there => ?_⟩
          · have shows := readInto_front g .redirIn (files node)
            refine Eq.trans (front_congr fun i inside => ?_) shows
            rw [Globals.store]
            dsimp only
            rw [Function.update_self, Function.update_of_ne (Nat.ne_of_lt inside)]
          · rw [Globals.store, Globals.readInto]
            dsimp only
            rw [Function.update_of_ne other, Function.update_of_ne other]
          · obtain rfl := Option.some.inj there
            exact Or.inr rfl

theorem stageOut_eq (i : Nat) : stageOut i = .bufA ∨ stageOut i = .bufB := by
  rw [stageOut]
  split
  · exact Or.inr rfl
  · exact Or.inl rfl

theorem vfsWrite_end {stored : Nat} (file : List UInt8) {bytes : List UInt8}
    (whole : bytes.length ≤ stored) :
    vfsWrite stored file file.length bytes = file ++ bytes := by
  simp [vfsWrite, List.take_of_length_le whole]

theorem vgaPutchar_off {g : Globals} (off : g.captureBuf = none) (c : UInt8) :
    g.vgaPutchar c = g := by
  rw [Globals.vgaPutchar, off]

theorem readlineKey_off {g : Globals} (off : g.captureBuf = none) (maxLen key : Int)
    (line : List UInt8) : (g.readlineKey maxLen key line).2.2 = g := by
  rw [Globals.readlineKey]
  split_ifs <;> simp only [vgaPutchar_off off]

/-- A line that comes from the keyboard leaves the kernel as it was. -/
theorem readlineLoop_off {g : Globals} (off : g.captureBuf = none) (keyboard : g.stdinOverride = false)
    (maxLen : Int) (fuel : Nat) : ∀ (keys : List Int) (line : List UInt8),
      (g.readlineLoop maxLen fuel keys line).2 = g := by
  induction fuel with
  | zero => exact fun _ _ => rfl
  | succ fuel fuel_ih =>
      intro keys line
      unfold Globals.readlineLoop
      rw [if_neg (by simp [keyboard])]
      cases keys with
      | nil => rfl
      | cons key keys =>
          have kept := readlineKey_off off maxLen key line
          dsimp only
          generalize g.readlineKey maxLen key line = read at kept ⊢
          obtain ⟨ended, line', g'⟩ := read
          dsimp only at kept
          subst kept
          cases ended with
          | true => rfl
          | false => exact fuel_ih keys line'

/-! ## What each event leaves -/

namespace Invariant

variable {s : State}

theorem write (holds : Invariant s) (c : UInt8) (allowed : s.Allowed (.write c)) :
    Invariant (s.step (.write c)) := by
  obtain ⟨kernel, files, calls, stage, curIn, outs, ins, fed, stageIn, log⟩ := s
  obtain ⟨observed, out, input, pipe⟩ := holds
  dsimp only at observed out input pipe
  rw [State.step]
  cases out with
  | none outside off last =>
      simp only [vgaPutchar_off off]
      exact ⟨observed, .none outside off last, input, pipe⟩
  | call req written inside path last captures =>
      obtain ⟨captures', keeps⟩ := captures.putchar (allowed _ rfl) c
      refine ⟨observed, .call req _ inside (path.trans (congrArg some keeps.kOutpath.symm)) last
        captures', ?_, ?_⟩
      · exact input.congr rfl (keeps.mem _ (by decide)) keeps.stdinOverride keeps.overrideLen
          keeps.overridePos
      · exact pipe.congr fun b other _ _ => keeps.mem b other
  | stage st written outside runs last captures =>
      obtain ⟨captures', keeps⟩ := captures.putchar (allowed _ rfl) c
      refine ⟨observed, .stage st _ outside runs last captures', ?_, ?_⟩
      · exact input.congr rfl (keeps.mem _ (pipe.out_ne runs).2.symm) keeps.stdinOverride
          keeps.overrideLen keeps.overridePos
      · exact pipe.congr fun b _ _ apart => keeps.mem b (apart st runs last)

theorem message (holds : Invariant s) (c : UInt8) (allowed : s.Allowed (.message c)) :
    Invariant (s.step (.message c)) := by
  obtain ⟨kernel, files, calls, stage, curIn, outs, ins, fed, stageIn, log⟩ := s
  obtain ⟨observed, out, input, pipe⟩ := holds
  obtain rfl : outs = [] := allowed
  rw [State.step]
  cases out with
  | none outside off last =>
      simp only [vgaPutchar_off off]
      exact ⟨observed, .none outside off last, input, pipe⟩

theorem getc (holds : Invariant s) (key : Int) (allowed : s.Allowed (.getc key)) :
    Invariant (s.step (.getc key)) := by
  obtain ⟨kernel, files, calls, stage, curIn, outs, ins, fed, stageIn, log⟩ := s
  obtain ⟨observed, out, input, pipe⟩ := holds
  dsimp only at observed out input pipe
  cases input with
  | none outside off =>
      have same : kernel.keyboardGetchar key = (key, kernel) := by
        rw [Globals.keyboardGetchar, if_neg (by simp [off])]
      simp only [State.step, same]
      exact ⟨observed, out, .none outside off, pipe⟩
  | missing req inside off =>
      have same : kernel.keyboardGetchar key = (key, kernel) := by
        rw [Globals.keyboardGetchar, if_neg (by simp [off])]
      simp only [State.step, same]
      exact ⟨observed, out, .missing req inside off, pipe⟩
  | file req input inside on len pos bytes =>
      obtain ⟨more, room⟩ := allowed input rfl
      have before : kernel.overridePos < kernel.overrideLen := by
        rw [len, pos]
        exact lt_min more room
      have read : kernel.keyboardGetchar key = (((kernel.mem .stdinBuf input.count).toNat : Int),
          { kernel with overridePos := kernel.overridePos + 1 }) := by
        rw [Globals.keyboardGetchar, if_pos ⟨on, before⟩, pos]
      have byte : input.bytes[input.count]? = some (kernel.mem .stdinBuf input.count) := by
        have same := congrArg (fun list => list[input.count]?) bytes
        rw [pos] at before
        rw [front_getElem?, if_pos before, List.getElem?_take_of_lt before] at same
        exact same.symm
      simp only [State.step, read, byte]
      refine ⟨?_, ?_, ?_, pipe⟩
      · intro seen there
        rcases List.mem_cons.mp there with rfl | old
        · rfl
        · exact observed seen old
      · exact out.congr rfl rfl rfl rfl rfl fun _ _ => rfl
      · exact .file req _ inside on len (congrArg (· + 1) pos) bytes

theorem getline (holds : Invariant s) (maxLen : Int) (keys : List Int)
    (allowed : s.Allowed (.getline maxLen keys)) : Invariant (s.step (.getline maxLen keys)) := by
  obtain ⟨kernel, files, calls, stage, curIn, outs, ins, fed, stageIn, log⟩ := s
  obtain ⟨observed, out, input, pipe⟩ := holds
  obtain ⟨rfl, keyboard⟩ := allowed
  dsimp only at observed out input pipe keyboard
  cases out with
  | none outside off last =>
      have same : kernel.stdinOverride = false →
          (kernel.keyboardReadline maxLen keys).2 = kernel := fun keys' =>
        readlineLoop_off off keys' maxLen _ keys []
      cases input with
      | none outside' off' =>
          simp only [State.step, same off']
          exact ⟨observed, .none outside off last, .none outside' off', pipe⟩
      | missing req inside off' =>
          simp only [State.step, same off']
          exact ⟨observed, .none outside off last, .missing req inside off', pipe⟩
      | file req input inside on len pos bytes => exact absurd rfl (keyboard input)

theorem readPipe (holds : Invariant s) (i : Nat) : Invariant (s.step (.readPipe i)) := by
  obtain ⟨kernel, files, calls, stage, curIn, outs, ins, fed, stageIn, log⟩ := s
  obtain ⟨observed, out, input, pipe⟩ := holds
  cases stage with
  | none => exact ⟨observed, out, input, pipe⟩
  | some st =>
      refine ⟨?_, out, input, pipe⟩
      intro seen there
      rcases List.mem_cons.mp there with rfl | old
      · have read := (pipe.during st rfl).read i
        dsimp only at read ⊢
        rw [read]
      · exact observed seen old

theorem change (holds : Invariant s) (node : Nat) (bytes : List UInt8) :
    Invariant (s.step (.change node bytes)) :=
  ⟨holds.observed, holds.out, holds.input, holds.pipe⟩

theorem line (holds : Invariant s) : Invariant (s.step .line) := by
  rw [State.step]
  by_cases none_ : s.stage.isNone = true
  · rw [if_pos none_]
    exact ⟨holds.observed, holds.out, holds.input, fun _ => .nothing, holds.pipe.during,
      holds.pipe.apart, holds.pipe.out⟩
  · rw [if_neg none_]
    exact holds

theorem spawn (holds : Invariant s) (req : SpawnReq) (resolve : List UInt8 → Option Nat) (got : Nat)
    (allowed : s.Allowed (.spawn req resolve got)) :
    Invariant (s.step (.spawn req resolve got)) := by
  obtain ⟨kernel, files, calls, stage, curIn, outs, ins, fed, stageIn, log⟩ := s
  obtain ⟨observed, out, input, pipe⟩ := holds
  obtain ⟨allowedOut, allowedIn⟩ := allowed
  dsimp only at observed out input pipe allowedOut allowedIn
  cases asked : req.stdoutPath with
  | none =>
      have capture := spawnStdin_capture kernel files resolve got req.stdinPath
      have same : outCalls (req :: calls) = outCalls calls :=
        List.filter_cons_of_neg (by simp [asked])
      have entered : spawnEnter kernel files req resolve got =
          spawnStdin kernel files resolve got req.stdinPath := by
        rw [spawnEnter, asked]
      simp only [State.step, asked, entered]
      refine ⟨observed, ?_, input.spawn files req resolve got allowedIn, ?_⟩
      · refine out.congr same capture.captureBuf capture.captureCap capture.captureLen
          capture.kOutpath fun b used => capture.mem b ?_
        rcases used with rfl | ⟨st, runs, rfl⟩
        · decide
        · exact (pipe.out_ne runs).2
      · exact pipe.congr fun b _ other _ => capture.mem b other
  | some path =>
      obtain ⟨short, rfl⟩ := allowedOut path asked
      have capture := spawnStdin_capture { kernel with kOutpath := path } files resolve got
        req.stdinPath
      have entered : spawnEnter kernel files req resolve got =
          (spawnStdin { kernel with kOutpath := path } files resolve got
            req.stdinPath).vgaCaptureBegin .cap capSize := by
        rw [spawnEnter, asked]
        dsimp only
        rw [List.take_of_length_le short]
      have inside : outCalls (req :: calls) = req :: outCalls calls :=
        List.filter_cons_of_pos (by simp [asked])
      simp only [State.step, asked, entered]
      cases out with
      | none outside off last =>
          rw [outside] at inside
          refine ⟨observed, .call req [] inside ?_ last (.begin _ _ (by decide)), ?_, ?_⟩
          · rw [asked]
            exact congrArg some capture.kOutpath.symm
          · have input' : InInvariant { kernel with kOutpath := path } calls ins :=
              input.congr rfl rfl rfl rfl rfl
            exact (input'.spawn files req resolve got allowedIn).congr rfl rfl rfl rfl rfl
          · exact pipe.congr fun b _ other _ => capture.mem b other

/-- The end of a call: the file has what the run has written. -/
theorem exit (holds : Invariant s) (create : List UInt8 → Option Nat) (stored : Nat)
    (allowed : s.Allowed (.exit create stored)) : Invariant (s.step (.exit create stored)) := by
  obtain ⟨kernel, files, calls, stage, curIn, outs, ins, fed, stageIn, log⟩ := s
  obtain ⟨observed, out, input, pipe⟩ := holds
  dsimp only at observed out input pipe
  cases calls with
  | nil => exact ⟨observed, out, input, pipe⟩
  | cons req calls =>
      cases asked : req.stdoutPath with
      | none =>
          have same : outCalls (req :: calls) = outCalls calls :=
            List.filter_cons_of_neg (by simp [asked])
          have left : spawnLeave kernel files req create stored = (leaveStdin kernel req, files) := by
            rw [spawnLeave, leaveStdout, asked]
          have capture := leaveStdin_capture kernel req
          simp only [State.step, left, asked]
          refine ⟨observed, ?_, input.leave, ?_⟩
          · refine out.congr same.symm capture.captureBuf capture.captureCap capture.captureLen
              capture.kOutpath fun b _ => ?_
            rw [leaveStdin_mem]
          · rw [leaveStdin_mem]
            exact pipe
      | some path =>
          have inside : outCalls (req :: calls) = req :: outCalls calls :=
            List.filter_cons_of_pos (by simp [asked])
          cases out with
          | none outside off last =>
              rw [inside] at outside
              cases outside
          | stage st written outside runs last captures =>
              rw [inside] at outside
              cases outside
          | call req' written inside' path' last captures =>
              obtain ⟨rfl, outside⟩ := List.cons.inj (inside.symm.trans inside')
              obtain rfl : path = kernel.kOutpath := Option.some.inj (asked.symm.trans path')
              obtain ⟨len, off, bytes, keeps⟩ := captures.end_
              have whole : written.length ≤ stored := allowed _ rfl
              have left : spawnLeave kernel files req create stored =
                  (leaveStdin kernel.vgaCaptureEnd.2 req,
                    match create kernel.kOutpath with
                    | some node => Function.update files node
                        ((if req.append then files node else []) ++ written)
                    | none => files) := by
                rw [spawnLeave, leaveStdout, asked]
                dsimp only
                rw [len, bytes]
                cases create kernel.kOutpath with
                | none => rfl
                | some node =>
                    cases req.append with
                    | true => simp [vfsWrite_end _ whole]
                    | false => simp [vfsWrite, List.take_of_length_le whole]
              have capture := leaveStdin_capture kernel.vgaCaptureEnd.2 req
              simp only [State.step, left, asked]
              refine ⟨?_, ?_, ?_, ?_⟩
              · rw [Option.bind_some]
                cases create kernel.kOutpath with
                | none => exact observed
                | some node =>
                    intro seen there
                    rcases List.mem_cons.mp there with rfl | old
                    · simp
                    · exact observed seen old
              · exact .none outside (capture.captureBuf.trans off) last
              · refine InInvariant.leave (input.congr rfl ?_ keeps.stdinOverride keeps.overrideLen
                  keeps.overridePos)
                exact keeps.mem _ (by decide)
              · rw [leaveStdin_mem]
                exact pipe.congr fun b other _ _ => keeps.mem b other

theorem stage (holds : Invariant s) (i : Nat) (last : Bool) (redir : Option Nat) (got : Nat)
    (allowed : s.Allowed (.stage i last redir got)) :
    Invariant (s.step (.stage i last redir got)) := by
  obtain ⟨kernel, files, calls, stage, curIn, outs, ins, fed, stageIn, log⟩ := s
  obtain ⟨observed, out, input, pipe⟩ := holds
  obtain ⟨apart, fits⟩ := allowed
  dsimp only at observed out input pipe apart fits
  rw [State.step]
  dsimp only
  by_cases idle : stage.isNone = true ∧ calls = []
  · rw [if_pos idle]
    obtain ⟨none_, rfl⟩ := idle
    obtain rfl := Option.isNone_iff_eq_none.mp none_
    obtain ⟨feeds, keeps, capture, source⟩ := redirect_feeds (pipe.between rfl) files redir got
      fits
    have input' := input.congr rfl (keeps.mem _ (by decide)) keeps.stdinOverride
      keeps.overrideLen keeps.overridePos
    cases out with
    | call req written inside path last captures => cases inside
    | stage st written outside runs last captures => cases runs
    | none outside off last' =>
        cases last with
        | true =>
            refine ⟨observed, .none rfl (capture.trans off) ?_, input', ⟨?_, ?_, ?_, ?_⟩⟩
            · intro st runs
              exact Option.some.inj runs ▸ rfl
            · exact fun absurd_ => by cases absurd_
            · intro st runs
              obtain rfl := Option.some.inj runs
              exact feeds
            · intro st runs last
              obtain rfl := Option.some.inj runs
              cases last
            · intro st runs
              obtain rfl := Option.some.inj runs
              exact stageOut_eq i
        | false =>
            refine ⟨observed, .stage _ [] rfl rfl rfl (.begin _ _ (by decide)),
              input'.congr rfl rfl rfl rfl rfl, ⟨?_, ?_, ?_, ?_⟩⟩
            · exact fun absurd_ => by cases absurd_
            · intro st runs
              obtain rfl := Option.some.inj runs
              exact feeds
            · intro st runs _ input there
              obtain rfl := Option.some.inj runs
              rcases source input there with old | new
              · exact apart rfl input old
              · rw [new]
                dsimp only
                rcases stageOut_eq i with out | out <;> rw [out] <;> decide
            · intro st runs
              obtain rfl := Option.some.inj runs
              exact stageOut_eq i
  · rw [if_neg idle]
    exact ⟨observed, out, input, pipe⟩

/-- The end of a stage: the next one is fed with what it has written. -/
theorem stageEnd (holds : Invariant s) : Invariant (s.step .stageEnd) := by
  obtain ⟨kernel, files, calls, stage, curIn, outs, ins, fed, stageIn, log⟩ := s
  obtain ⟨observed, out, input, pipe⟩ := holds
  dsimp only at observed out input pipe
  cases stage with
  | none => exact ⟨observed, out, input, pipe⟩
  | some st =>
      cases calls with
      | cons req calls => exact ⟨observed, out, input, pipe⟩
      | nil =>
          have idle : ∀ st' ∈ (none : Option Stage), st'.last = true := fun _ there => by
            cases there
          cases out with
          | call req written inside path last captures => cases inside
          | none outside off last =>
              simp only [State.step, last st rfl, if_true]
              refine ⟨observed, .none rfl off idle, input, fun _ => .nothing, ?_, ?_, ?_⟩ <;>
                exact fun _ there => by cases there
          | stage st' written outside runs last captures =>
              obtain rfl := Option.some.inj runs
              obtain ⟨len, off, bytes, keeps⟩ := captures.end_
              have ne := pipe.out_ne rfl
              simp only [State.step, last]
              refine ⟨observed, .none rfl off idle, ?_, fun _ => ?_, ?_, ?_, ?_⟩
              · exact input.congr rfl (keeps.mem _ ne.2.symm) keeps.stdinOverride
                  keeps.overrideLen keeps.overridePos
              · rw [len]
                exact .bytes st.out written bytes ne.1 ne.2
              all_goals exact fun _ there => by cases there

theorem step (s : State) (event : Event) (holds : Invariant s) (allowed : s.Allowed event) :
    Invariant (s.step event) := by
  cases event with
  | spawn req resolve got => exact holds.spawn req resolve got allowed
  | exit create stored => exact holds.exit create stored allowed
  | line => exact holds.line
  | stage i last redir got => exact holds.stage i last redir got allowed
  | stageEnd => exact holds.stageEnd
  | write c => exact holds.write c allowed
  | message c => exact holds.message c allowed
  | getc key => exact holds.getc key allowed
  | getline maxLen keys => exact holds.getline maxLen keys allowed
  | readPipe i => exact holds.readPipe i
  | change node bytes => exact holds.change node bytes

theorem start (mem : Buffer → Nat → UInt8) (kOutpath : List UInt8) (files : Nat → List UInt8) :
    Invariant (State.start mem kOutpath files) := by
  refine ⟨fun _ there => absurd there List.not_mem_nil, .none rfl rfl ?_, .none rfl rfl,
    fun _ => .nothing, ?_, ?_, ?_⟩ <;>
    exact fun _ there => by cases there

end Invariant

end Redirection

end Trinux
