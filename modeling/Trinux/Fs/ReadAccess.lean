import Trinux.Fs.References

namespace Trinux

/-!
# Who gets to read what

Permissions are checked when a file is opened, and its descriptor is then used by whoever names it.
`SYS_FILE_OPEN` asks for the permission to read only in the mode `O_RDONLY`, `SYS_FILE_READ` does
not look at the mode, and `SYS_SPAWN_R` reads the file for the input of a program without asking.

The audit below records who opened each descriptor and who was allowed to read its file at that
time, and the same of the file that each byte of `stdin_buf` came from.  No call reads the record.

A node that was freed may be given to another file by the heap while a descriptor, a directory handle
or the current directory still leads to it.  What a call reads through one is not the file that was
opened, and the model has no outcome for it.
-/

structure Opening where
  openedBy : Cred
  readable : Cred → Bool

/-- Bytes that were delivered to a program: under which credential, and whether it was allowed to
read the file when that was opened. -/
structure Delivery where
  cred : Cred
  readable : Bool
  deriving DecidableEq

/-- The system with the record.  `stdinBuf` says of each byte of `stdin_buf` which file it came from,
and `stdin` how many of them the keyboard delivers instead of keys. -/
structure Audit where
  session : Session
  files : Nat → Opening
  stdinBuf : List (Option Opening)
  stdin : Option Nat
  deliveries : List Delivery

inductive ReadCall where
  | file (call : Session.FileCall)
  | readFile (path : PathArg) (maxsz : UInt32)
  | spawn (stdinPath : PathArg)
  | readStdin
  | spawnEnd

namespace Audit

def opening (context : CallContext) (storage : Storage) (id : Nat) : Opening :=
  ⟨context.cred, fun cred => storage.fs.checkAccess cred id accRead⟩

def deliver (a : Audit) (cred : Cred) (from_ : List Opening) : Audit :=
  { a with deliveries := a.deliveries ++ from_.map fun file => ⟨cred, file.readable cred⟩ }

def input (a : Audit) : List Opening :=
  ((a.stdin.map a.stdinBuf.take).getD []).reduceOption

def openFile (context : CallContext) (path : PathArg) (flags : UInt32) (a : Audit) :
    Option Audit :=
  (a.session.openTarget context path flags).bind fun target =>
    (a.session.sysFileOpen context path flags).map fun opened =>
      match target.1 with
      | none => { a with session := opened.2 }
      | some id =>
          if opened.1 < (0 : Int) then { a with session := opened.2 }
          else { a with
            session := opened.2
            files := Function.update a.files opened.1.toNat (opening context target.2 id) }

def step (context : CallContext) (call : ReadCall) (a : Audit) : Option Audit :=
  match call with
  | .file (.openFile path flags) => a.openFile context path flags
  | .file (.read fd want) =>
      (a.session.sysFileRead context fd want).map fun read =>
        { a with session := read.2.2 }.deliver context.cred
          (read.2.1.map fun _ => a.files fd.toNat)
  | .file call => (a.session.step context call).map fun s => { a with session := s }
  | .readFile path maxsz =>
      (vfsResolve a.session.storage.fs path a.session.cwd).bind fun found =>
        (a.session.sysReadFile context path maxsz).map fun read =>
          match found with
          | none => { a with session := read.2.2 }
          | some id => { a with session := read.2.2 }.deliver context.cred
              (read.2.1.map fun _ => opening context a.session.storage id)
  | .spawn path =>
      (a.session.spawnInput context path).map fun input =>
        match input.1 with
        | none => { a with session := input.2 }
        | some (id, bytes, len) => { a with
            session := input.2
            stdinBuf := (bytes.map fun _ => some (opening context a.session.storage id)) ++
              a.stdinBuf.drop bytes.length
            stdin := some len }
  | .readStdin => some (a.deliver context.cred a.input)
  | .spawnEnd => some { a with stdin := none }

def run : Audit → List (CallContext × ReadCall) → Option Audit
  | a, [] => some a
  | a, (context, call) :: rest => (a.step context call).bind fun a => run a rest

def start (storage : Storage) : Audit :=
  ⟨.start storage, fun _ => ⟨⟨0, 0⟩, fun _ => false⟩, List.replicate 4096 none, none, []⟩

/-- Users other than root only get bytes of files that they were allowed to read when these were
opened. -/
def Confidential (a : Audit) : Prop :=
  ∀ d ∈ a.deliveries, d.cred.uid ≠ 0 → d.readable = true

def Reaches (s : Session) : Session.FileCall → Prop
  | .read fd _ | .write fd _ => ∀ kfd ∈ s.openKfd fd, (kfd.node.bind s.storage.fs.node).isSome
  | .seek fd _ whence =>
      whence = 2 → ∀ kfd ∈ s.openKfd fd, (kfd.node.bind s.storage.fs.node).isSome
  | .readdir dh => ∀ id ∈ if 0 < dh ∧ dh < dhMax then s.descriptors.dhTable dh.toNat else none,
      (s.storage.fs.node id).isSome
  | _ => True

/-- A user other than root does not open a file that he may not read in another mode than
`O_RDONLY`, does not redirect the input of a program to such a file, and reads what was opened by
somebody else only if he was allowed to read it then. -/
def Allows (context : CallContext) (call : ReadCall) (a : Audit) : Prop :=
  match call with
  | .file (.openFile path flags) => flags &&& 3 ≠ 0 →
      ∀ target ∈ a.session.openTarget context path flags, ∀ id ∈ target.1,
        target.2.fs.checkAccess context.cred id accRead = true
  | .file (.read fd _) => (a.session.openKfd fd).isSome →
      (a.files fd.toNat).openedBy = context.cred ∨
        (a.files fd.toNat).readable context.cred = true
  | .spawn path => ∀ found ∈ vfsResolve a.session.storage.fs path a.session.cwd, ∀ id ∈ found,
      ∀ node ∈ a.session.storage.fs.node id, node.type = vfsFile →
        checkAccess context.cred node accRead = true
  | .readStdin => ∀ from_ ∈ a.input,
      from_.openedBy = context.cred ∨ from_.readable context.cred = true
  | _ => True

/-- The current directory and what the call names are still there, and a user other than root only
makes calls that keep to what he may read. -/
structure Permitted (context : CallContext) (call : ReadCall) (a : Audit) : Prop where
  here : ∀ id ∈ a.session.cwd, (a.session.storage.fs.node id).isSome
  reaches : ∀ op, call = .file op → Reaches a.session op
  allows : context.cred.uid ≠ 0 → a.Allows context call

def PermittedAll : Audit → List (CallContext × ReadCall) → Prop
  | _, [] => True
  | a, (context, call) :: rest =>
      a.Permitted context call ∧ ∀ a' ∈ a.step context call, PermittedAll a' rest

instance (s : Session) (op : Session.FileCall) : Decidable (Reaches s op) := by
  cases op <;> unfold Reaches <;> infer_instance

instance (context : CallContext) (call : ReadCall) (a : Audit) :
    Decidable (a.Allows context call) := by
  rcases call with op | _ | _ | _ | _
  · cases op <;> unfold Allows <;> infer_instance
  all_goals unfold Allows; infer_instance

def permits (context : CallContext) (call : ReadCall) (a : Audit) : Bool :=
  (a.session.cwd.all fun id => (a.session.storage.fs.node id).isSome) &&
    (match call with
      | .file op => decide (Reaches a.session op)
      | _ => true) &&
    decide (context.cred.uid ≠ 0 → a.Allows context call)

theorem permitted_of_permits {context : CallContext} {call : ReadCall} {a : Audit}
    (permits : a.permits context call = true) : a.Permitted context call := by
  unfold Audit.permits at permits
  rw [Bool.and_eq_true, Bool.and_eq_true] at permits
  refine ⟨fun id here => ?_, fun op isFile => ?_, of_decide_eq_true permits.2⟩
  · exact (Option.all_eq_true _ _).mp permits.1.1 id here
  · subst isFile
    exact of_decide_eq_true permits.1.2

def permitsAll : Audit → List (CallContext × ReadCall) → Bool
  | _, [] => true
  | a, (context, call) :: rest =>
      a.permits context call && (a.step context call).all fun a' => permitsAll a' rest

theorem permittedAll_of_permitsAll {calls : List (CallContext × ReadCall)} {a : Audit}
    (permits : a.permitsAll calls = true) : a.PermittedAll calls := by
  induction calls generalizing a with
  | nil => trivial
  | cons first rest known =>
      rw [permitsAll, Bool.and_eq_true] at permits
      refine ⟨permitted_of_permits permits.1, fun a' stepped => ?_⟩
      exact known ((Option.all_eq_true _ _).mp permits.2 a' stepped)

end Audit

/-! ## The record of every run -/

namespace Audit

structure Sound (a : Audit) : Prop where
  files : ∀ fd, (a.files fd).openedBy.uid ≠ 0 →
    (a.files fd).readable (a.files fd).openedBy = true
  stdin : ∀ from_, some from_ ∈ a.stdinBuf → from_.openedBy.uid ≠ 0 →
    from_.readable from_.openedBy = true
  confidential : a.Confidential

section Steps

variable {a a' : Audit} {context : CallContext}

theorem Sound.session (sound : a.Sound) (s : Session) :
    ({ a with session := s } : Audit).Sound :=
  ⟨sound.files, sound.stdin, sound.confidential⟩

theorem Sound.other (sound : a.Sound) (context : CallContext) (call : Session.FileCall)
    (ran : (a.session.step context call).map (fun s => { a with session := s }) = some a') :
    a'.Sound := by
  rcases Option.map_eq_some_iff.mp ran with ⟨s, -, rfl⟩
  exact sound.session s

theorem Sound.deliver {cred : Cred} {from_ : List Opening} (sound : a.Sound)
    (readable : ∀ file ∈ from_, cred.uid ≠ 0 → file.readable cred = true) :
    (a.deliver cred from_).Sound := by
  refine ⟨sound.files, sound.stdin, fun d member notRoot => ?_⟩
  rcases List.mem_append.mp member with old | new
  · exact sound.confidential d old notRoot
  · rcases List.mem_map.mp new with ⟨file, isFrom, rfl⟩
    exact readable file isFrom notRoot

/-- What the redirected input comes from is in the record of `stdin_buf`. -/
theorem Sound.input (sound : a.Sound) {from_ : Opening} (isInput : from_ ∈ a.input)
    (notRoot : from_.openedBy.uid ≠ 0) : from_.readable from_.openedBy = true := by
  rw [Audit.input, List.reduceOption_mem_iff] at isInput
  cases redirected : a.stdin with
  | none =>
      rw [redirected] at isInput
      cases isInput
  | some len =>
      rw [redirected] at isInput
      exact sound.stdin from_ (List.mem_of_mem_take isInput) notRoot

/-- The reader was allowed to read, or opened the file and so was. -/
theorem readable_of_opening {opening : Opening} {cred : Cred}
    (sound : opening.openedBy.uid ≠ 0 → opening.readable opening.openedBy = true)
    (reader : opening.openedBy = cred ∨ opening.readable cred = true) (notRoot : cred.uid ≠ 0) :
    opening.readable cred = true := by
  rcases reader with rfl | readable
  · exact sound notRoot
  · exact readable

/-- A descriptor is only given out after the check of its mode. -/
theorem sysFileOpen_allowed {path : PathArg} {flags : UInt32} {s s' : Session} {code : Int}
    {id : Nat} {storage : Storage}
    (target : s.openTarget context path flags = some (some id, storage))
    (opened : s.sysFileOpen context path flags = some (code, s')) (given : ¬code < 0) :
    Session.openAllowed context storage.fs id flags = true := by
  rw [Session.sysFileOpen, target, Option.bind_some] at opened
  simp only at opened
  split at opened
  · cases opened
  split at opened
  · cases opened
    exact absurd (by decide) given
  · rename_i allowed
    simpa using allowed

theorem Sound.openFile {path : PathArg} {flags : UInt32} (sound : a.Sound)
    (permitted : a.Permitted context (.file (.openFile path flags)))
    (ran : a.openFile context path flags = some a') : a'.Sound := by
  rcases Option.bind_eq_some_iff.mp ran with ⟨⟨target, storage⟩, found, rest⟩
  rcases Option.map_eq_some_iff.mp rest with ⟨⟨code, s⟩, opened, same⟩
  cases target with
  | none =>
      cases same
      exact sound.session s
  | some id =>
      simp only at same
      split at same
      · cases same
        exact sound.session s
      rename_i given
      cases same
      refine ⟨fun fd notRoot => ?_, sound.stdin, sound.confidential⟩
      simp only at notRoot ⊢
      by_cases here : fd = code.toNat
      · subst here
        rw [Function.update_self] at notRoot ⊢
        by_cases reading : flags &&& 3 = 0
        · have allowed := sysFileOpen_allowed found opened given
          rw [Session.openAllowed, if_pos reading] at allowed
          exact allowed
        · exact permitted.allows notRoot reading _ found id rfl
      · rw [Function.update_of_ne here] at notRoot ⊢
        exact sound.files fd notRoot

theorem Sound.step {call : ReadCall} (sound : a.Sound) (permitted : a.Permitted context call)
    (ran : a.step context call = some a') : a'.Sound := by
  cases call with
  | file call =>
      cases call with
      | openFile path flags => exact sound.openFile permitted ran
      | read fd want =>
          rcases Option.map_eq_some_iff.mp ran with ⟨⟨code, bytes, s⟩, read, rfl⟩
          refine (sound.session s).deliver fun file isFrom notRoot => ?_
          rcases List.mem_map.mp isFrom with ⟨byte, delivered, rfl⟩
          cases isOpen : a.session.openKfd fd with
          | none =>
              rw [Session.sysFileRead, isOpen] at read
              cases read
              cases delivered
          | some kfd =>
              have isSome : (a.session.openKfd fd).isSome := by
                rw [isOpen]
                rfl
              exact readable_of_opening (sound.files fd.toNat) (permitted.allows notRoot isSome)
                notRoot
      | path op => exact sound.other context (.path op) ran
      | write fd buffer => exact sound.other context (.write fd buffer) ran
      | seek fd off whence => exact sound.other context (.seek fd off whence) ran
      | close fd => exact sound.other context (.close fd) ran
      | opendir path => exact sound.other context (.opendir path) ran
      | readdir dh => exact sound.other context (.readdir dh) ran
      | closedir dh => exact sound.other context (.closedir dh) ran
      | chdir path => exact sound.other context (.chdir path) ran
      | home path orRoot => exact sound.other context (.home path orRoot) ran
      | exit => exact sound.other context .exit ran
  | readFile path maxsz =>
      rcases Option.bind_eq_some_iff.mp ran with ⟨found, isFound, rest⟩
      rcases Option.map_eq_some_iff.mp rest with ⟨⟨code, bytes, s⟩, read, same⟩
      cases found with
      | none =>
          cases same
          exact sound.session s
      | some id =>
          cases same
          refine (sound.session s).deliver fun file isFrom notRoot => ?_
          rcases List.mem_map.mp isFrom with ⟨byte, delivered, rfl⟩
          rw [Session.sysReadFile, isFound, Option.bind_some] at read
          simp only [Option.bind_some] at read
          show a.session.storage.fs.checkAccess context.cred id accRead = true
          rw [Fs.checkAccess]
          cases live : a.session.storage.fs.node id with
          | none =>
              rw [live] at read
              cases read
              cases delivered
          | some node =>
              rw [live] at read
              simp only [Option.map_some] at read
              split at read
              · cases read
                cases delivered
              · rename_i checks
                simpa using (not_or.mp checks).2
  | spawn path =>
      rcases Option.map_eq_some_iff.mp ran with ⟨⟨input, s⟩, read, same⟩
      cases input with
      | none =>
          cases same
          exact sound.session s
      | some input =>
          rcases input with ⟨id, bytes, len⟩
          cases same
          refine ⟨sound.files, fun from_ member notRoot => ?_, sound.confidential⟩
          rcases List.mem_append.mp member with new | old
          swap
          · exact sound.stdin from_ (List.mem_of_mem_drop old) notRoot
          rcases List.mem_map.mp new with ⟨byte, -, isFrom⟩
          cases isFrom
          rcases Option.bind_eq_some_iff.mp read with ⟨found, isFound, rest⟩
          split at rest
          · cases rest
          rename_i id' node held
          rcases Option.bind_eq_some_iff.mp held with ⟨other, rfl, live⟩
          rcases Option.map_eq_some_iff.mp live with ⟨node', live, same⟩
          cases same
          split at rest
          · cases rest
          rename_i file
          rcases Option.map_eq_some_iff.mp rest with ⟨bytes', -, same⟩
          cases same
          have may := permitted.allows notRoot _ isFound id rfl node live (by simpa using file)
          show a.session.storage.fs.checkAccess context.cred id accRead = true
          rw [Fs.checkAccess, live]
          exact may
  | readStdin =>
      cases ran
      refine sound.deliver fun from_ isInput notRoot => ?_
      exact readable_of_opening (sound.input isInput) (permitted.allows notRoot from_ isInput)
        notRoot
  | spawnEnd =>
      cases ran
      exact ⟨sound.files, sound.stdin, sound.confidential⟩

theorem Sound.run {calls : List (CallContext × ReadCall)} (sound : a.Sound)
    (permitted : a.PermittedAll calls) (ran : a.run calls = some a') : a'.Sound := by
  induction calls generalizing a with
  | nil =>
      cases ran
      exact sound
  | cons first rest known =>
      rcases first with ⟨context, call⟩
      rcases Option.bind_eq_some_iff.mp ran with ⟨middle, stepped, later⟩
      exact known (sound.step permitted.1 stepped) (permitted.2 middle stepped) later

theorem start_sound (storage : Storage) : (start storage).Sound :=
  ⟨fun _ notRoot => absurd rfl notRoot,
    fun _ member => absurd (List.eq_of_mem_replicate member) (Option.some_ne_none _),
    fun _ member => absurd member List.not_mem_nil⟩

end Steps

/-! ## A secret that is read through the mode 3 -/

def userContext : CallContext := ⟨fun _ => .ideal, 100, ⟨1000, 1000⟩, 0o22, 5⟩

def shadowPath : PathArg := .of (literal "/etc/shadow")

def writeShadow : List (CallContext × ReadCall) :=
  [(Session.rootContext, .file (.path (.writeFile shadowPath [114]))),
    (Session.rootContext, .file (.path (.chmod shadowPath 0o600)))]

theorem shadow_delivered :
    ((boot .ideal noDisk).bind fun storage => (start storage).run (writeShadow ++
      [(userContext, .file (.openFile shadowPath 3)), (userContext, .file (.read 3 1))])).map
        Audit.deliveries = some [⟨⟨1000, 1000⟩, false⟩] := by
  rw [boot_ideal]
  decide +kernel

/-- After that the user reads another file, through a descriptor and as redirected input, and is
refused the secret. -/
def readMotd : List (CallContext × ReadCall) :=
  [(userContext, .file (.openFile Session.motdPath 0)), (userContext, .file (.read 3 8)),
    (userContext, .file (.openFile shadowPath 0)), (userContext, .readFile shadowPath 8),
    (userContext, .spawn Session.motdPath), (userContext, .readStdin)]

theorem motd_read :
    ((boot .ideal noDisk).any fun storage =>
      (start storage).permitsAll (writeShadow ++ readMotd) &&
        ((start storage).run (writeShadow ++ readMotd)).any fun a =>
          8 < a.deliveries.length) = true := by
  rw [boot_ideal]
  decide +kernel

end Audit

end Trinux
