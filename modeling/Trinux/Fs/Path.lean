import Trinux.Fs.Node

namespace Trinux

/-!
# Path strings

`path_normalize` copies the path, joined to the current directory if it is
relative, into a buffer of 512 bytes, cuts it into components, resolves `.` and
`..` on a stack of 64 entries and writes the canonical path to a buffer of
`PATH_MAX` bytes.  The first two limits cut silently; the last one is not
checked, and `none` stands for a path that runs past it.
-/

def slash : UInt8 := 47

def pathMax : Nat := 256

/-- A path argument: the string it points to, and whether it is the null pointer, which counts
as relative. -/
structure PathArg where
  null : Bool
  text : List UInt8
  deriving DecidableEq, Repr

def PathArg.of (text : List UInt8) : PathArg := ⟨false, text⟩

def pathIsAbsolute (path : PathArg) : Bool :=
  !path.null && path.text.head? == some slash

def pathWork (base : List UInt8) (path : PathArg) : List UInt8 :=
  if pathIsAbsolute path then path.text.take 511
  else
    let work := base.take 511
    let work :=
      if work.getLast? ≠ some slash ∧ work.length < 511 then work ++ [slash] else work
    work ++ path.text.take (511 - work.length)

def pathTokens (text : List UInt8) : List (List UInt8) :=
  (text.splitOn slash).filter fun component => !component.isEmpty

def pathPush (stack : List (List UInt8)) (component : List UInt8) : List (List UInt8) :=
  if component = literal "." then stack
  else if component = literal ".." then stack.dropLast
  else if stack.length < 64 then stack ++ [component]
  else stack

def pathBuild (components : List (List UInt8)) : List UInt8 :=
  if components = [] then [slash] else components.flatMap fun component => slash :: component

def pathNormalize (base : List UInt8) (path : PathArg) : Option (List UInt8) :=
  let out := pathBuild ((pathTokens (pathWork base path)).foldl pathPush [])
  if out.length < pathMax then some out else none

def pathBasename (path : List UInt8) : List UInt8 :=
  let name := (path.reverse.takeWhile fun byte => byte ≠ slash).reverse
  if name = [] then [slash] else name

def pathDirname (path : List UInt8) : List UInt8 :=
  if slash ∉ path then literal "."
  else
    let front := ((path.reverse.dropWhile fun byte => byte ≠ slash).drop 1).reverse
    if front = [] then [slash] else front

example : pathNormalize (literal "/home/user") (.of (literal "../x//./y")) =
    some (literal "/home/x/y") := by decide

end Trinux
