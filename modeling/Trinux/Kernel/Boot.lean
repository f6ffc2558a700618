import Trinux.Fs.Devfs
import Trinux.Fs.DiskfsLoad
import Trinux.Fs.Fat16

namespace Trinux

/-!
# Bringing up the file system

At boot `ramfs_init` builds a small default tree, `diskfs_load` replaces what lies
below its root by the saved image if there is one, `devfs_init` appends the device
nodes, and `fat16_init` mounts a FAT volume.  The result of the load is reported
but not acted on.
-/

/-! ## The default tree -/

/-- One node of the default tree: its parent by order of creation, what is set after it was
created, and the text written to it. -/
structure BootNode where
  parent : Nat
  name : List UInt8
  type : UInt32
  change : VfsNode → VfsNode
  text : List UInt8

/-- The directories and files that `ramfs_init` creates below the root, in order.  The
permissions and owners are set between the calls in the source. -/
def bootNodes : List BootNode :=
  [⟨0, literal "bin", vfsDirectory, id, []⟩,
    ⟨0, literal "etc", vfsDirectory, id, []⟩,
    ⟨0, literal "home", vfsDirectory, id, []⟩,
    ⟨0, literal "tmp", vfsDirectory, fun node => { node with permissions := 0o1777 }, []⟩,
    ⟨0, literal "var", vfsDirectory, id, []⟩,
    ⟨0, literal "dev", vfsDirectory, id, []⟩,
    ⟨0, literal "mnt", vfsDirectory, id, []⟩,
    ⟨0, literal "root", vfsDirectory,
      fun node => { node with ownerUid := 0, ownerGid := 0, permissions := 0o700 }, []⟩,
    ⟨3, literal "user", vfsDirectory,
      fun node => { node with ownerUid := 1000, ownerGid := 1000 }, []⟩,
    ⟨5, literal "log", vfsDirectory, id, []⟩,
    ⟨2, literal "hostname", vfsFile, id, literal "trinux\n"⟩,
    ⟨2, literal "motd", vfsFile, id, literal "Welcome to Trinux!\nA tiny Unix-like kernel written in C and assembly.\nType 'help' to get started.\n"⟩,
    ⟨9, literal "readme.txt", vfsFile,
      fun node => { node with ownerUid := 1000, ownerGid := 1000 },
      literal "Hello from Trinux.\nThis file lives in a RAM filesystem.\nTry: cat readme.txt, wc readme.txt, hexdump readme.txt\n"⟩]

def bootRoot (now : UInt32) : Fs where
  node := fun id => if id = 0 then some (VfsNode.create now none (literal "/") vfsDirectory) else none
  root := some 0
  next := 1

/-- One node of the default tree.  The heap is fresh, so every allocation succeeds. -/
def ramfsInitNode (platform : Platform) (storage : Storage) (entry : BootNode) :
    Option Storage :=
  (ramfsCreateNode true platform.now storage.fs entry.parent entry.name entry.type).bind
    fun (id, fs) =>
      let storage := { storage with fs := fs.modify id entry.change }
      if entry.text = [] then some storage
      else (ramfsWrite { platform with alloc := fun _ => true } storage id 0 entry.text).map
        Prod.snd

/-- `ramfs_init`, with the static variables of the other drivers as they are at boot. -/
def ramfsInit (platform : Platform) (disk : Disk) : Option Storage :=
  bootNodes.foldlM (ramfsInitNode platform)
    { fs := bootRoot platform.now
      store := .disabled
      disk := disk
      fat := .unmounted
      randState := 0xCAFEBABE }

/-! ## The boot sequence -/

structure BootPlatform where
  ramfs : Platform
  blockfs : Platform
  diskfs : Platform
  devfs : Platform
  fat : Platform

def bootDisk (platform : BootPlatform) (storage : Storage) : Option Storage :=
  if storage.disk.present then
    match diskfsLoad platform.diskfs.faults platform.diskfs.alloc
        (fun _ => platform.diskfs.now) storage.fs storage.disk with
    | .ret _ fs => some { storage with
        fs := fs
        store := Blockfs.init platform.blockfs.faults platform.blockfs.alloc storage.disk }
    | .wild => none
  else some storage

/-- The file-system part of `kernel_main`; `none` if it does not return or leaves its memory. -/
def boot (platform : BootPlatform) (disk : Disk) : Option Storage :=
  (ramfsInit platform.ramfs disk).bind fun storage =>
    (bootDisk platform storage).bind fun storage =>
      fat16Init platform.fat
        { storage with fs := devfsInit platform.devfs storage.fs storage.disk }

end Trinux
