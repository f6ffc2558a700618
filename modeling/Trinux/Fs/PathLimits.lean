import Trinux.Fs.Path
import Trinux.Lib.Components

namespace Trinux

open Components

/-!
# Canonical paths and the limits of `path_normalize`

The canonical path of a base and a path is what the components of the joined
path leave on a stack without limits.  `path_normalize` computes it through a
buffer of 512 bytes, a table of 64 components and an output of `PATH_MAX` bytes.
It is right exactly on the inputs that stay within all three.
-/

/-! ## The reference -/

def pathJoined (base : List UInt8) (path : PathArg) : List UInt8 :=
  if pathIsAbsolute path then path.text
  else (if base.getLast? ≠ some slash then base ++ [slash] else base) ++ path.text

def pathStep (stack : List (List UInt8)) (component : List UInt8) : List (List UInt8) :=
  if component = literal "." then stack
  else if component = literal ".." then stack.dropLast
  else stack ++ [component]

def pathResolve (components : List (List UInt8)) : List (List UInt8) :=
  components.foldl pathStep []

def pathCanonical (base : List UInt8) (path : PathArg) : List UInt8 :=
  pathBuild (pathResolve (pathTokens (pathJoined base path)))

def pathRefused : (stack : List (List UInt8)) → List (List UInt8) → List (List UInt8)
  | _, [] => []
  | stack, component :: rest =>
      let later := pathRefused (pathPush stack component) rest
      if component ≠ literal "." ∧ component ≠ literal ".." ∧ 64 ≤ stack.length then
        component :: later
      else later

/-- `path_normalize` gives the canonical path, which fits the callers' buffers and is its own
canonical path; every component was read whole and none was refused. -/
structure PathNormalized (base : List UInt8) (path : PathArg) : Prop where
  result : pathNormalize base path = some (pathCanonical base path)
  whole : pathTokens (pathWork base path) = pathTokens (pathJoined base path)
  kept : pathRefused [] (pathTokens (pathWork base path)) = []
  fits : (pathCanonical base path).length < pathMax
  again : ∀ other, pathNormalize other (.of (pathCanonical base path)) =
    some (pathCanonical base path)

/-- The limits of `path_normalize`: beyond 511 bytes the joined path has only slashes, its
components never pile up above 64 names, and its canonical path has fewer than 256 bytes. -/
structure PathWithinLimits (base : List UInt8) (path : PathArg) : Prop where
  uncut : ∀ byte ∈ (pathJoined base path).drop 511, byte = slash
  shallow : ∀ front back, pathTokens (pathJoined base path) = front ++ back →
    (pathResolve front).length ≤ 64
  short : (pathCanonical base path).length < pathMax

/-! ## The buffer -/

theorem pathTokens_eq (text : List UInt8) : pathTokens text = tokens slash text := rfl

theorem pathWork_eq (base : List UInt8) (path : PathArg) :
    pathWork base path = (pathJoined base path).take 511 := by
  rw [pathWork, pathJoined]
  split
  · rfl
  simp only
  by_cases long : 511 ≤ base.length
  · have full : (base.take 511).length = 511 := by
      rw [List.length_take]
      omega
    rw [if_neg (by omega), full, Nat.sub_self, List.take_zero, List.append_nil]
    split
    · rw [List.append_assoc, List.take_append_of_le_length long]
    · rw [List.take_append_of_le_length long]
  · have whole : base.take 511 = base := List.take_of_length_le (by omega)
    rw [whole]
    by_cases open_ : base.getLast? ≠ some slash
    · rw [if_pos ⟨open_, by omega⟩, if_pos open_, List.take_append]
      congr 1
      rw [List.take_of_length_le]
      rw [List.length_append, List.length_singleton]
      omega
    · rw [if_neg (fun both => open_ both.1), if_neg open_, List.take_append, whole]

/-- The buffer has all components of the joined path exactly if only slashes were cut off. -/
theorem pathWork_tokens_iff (base : List UInt8) (path : PathArg) :
    pathTokens (pathWork base path) = pathTokens (pathJoined base path) ↔
      ∀ byte ∈ (pathJoined base path).drop 511, byte = slash := by
  rw [pathTokens_eq, pathTokens_eq, pathWork_eq]
  generalize pathJoined base path = joined
  constructor
  · intro same byte member
    have letters := congrArg List.flatten same
    rw [flatten_tokens, flatten_tokens] at letters
    have split : joined = joined.take 511 ++ joined.drop 511 := (List.take_append_drop _ _).symm
    have none_ : (joined.drop 511).filter (fun letter => !(letter == slash)) = [] := by
      rw [split, List.filter_append, List.take_append_drop] at letters
      exact List.self_eq_append_right.mp letters
    by_contra different
    have kept : byte ∈ (joined.drop 511).filter fun letter => !(letter == slash) := by
      rw [List.mem_filter]
      exact ⟨member, by simpa using different⟩
    rw [none_] at kept
    cases kept
  · intro separators
    have whole := tokens_append_separators (joined.take 511) separators
    rwa [List.take_append_drop, eq_comm] at whole

/-! ## The table -/

theorem pathPush_eq {stack : List (List UInt8)} {component : List UInt8}
    (room : component ≠ literal "." → component ≠ literal ".." → stack.length < 64) :
    pathPush stack component = pathStep stack component := by
  rw [pathPush, pathStep]
  split
  · rfl
  split
  · rfl
  · rw [if_pos (room ‹_› ‹_›)]

theorem pathStep_name {stack : List (List UInt8)} {component : List UInt8}
    (named : component ≠ literal ".") (down : component ≠ literal "..") :
    pathStep stack component = stack ++ [component] := by
  rw [pathStep, if_neg named, if_neg down]

theorem pathStep_length (stack : List (List UInt8)) (component : List UInt8) :
    (pathStep stack component).length ≤ stack.length + 1 := by
  rw [pathStep]
  split
  · omega
  split
  · rw [List.length_dropLast]
    omega
  · rw [List.length_append, List.length_singleton]

/-- The table refuses nothing exactly if the stack without a limit stays within it. -/
theorem pathRefused_iff (stack components : List (List UInt8)) (room : stack.length ≤ 64) :
    pathRefused stack components = [] ↔
      ∀ front back, components = front ++ back → (front.foldl pathStep stack).length ≤ 64 := by
  induction components generalizing stack with
  | nil =>
      refine iff_of_true rfl fun front back cut => ?_
      rw [(List.append_eq_nil_iff.mp cut.symm).1]
      exact room
  | cons component rest known =>
      rw [pathRefused]
      by_cases refused : component ≠ literal "." ∧ component ≠ literal ".." ∧ 64 ≤ stack.length
      · rw [if_pos refused]
        refine iff_of_false (List.cons_ne_nil _ _) fun shallow => ?_
        have grown := shallow [component] rest rfl
        rw [List.foldl_cons, List.foldl_nil, pathStep_name refused.1 refused.2.1,
          List.length_append, List.length_singleton] at grown
        omega
      · rw [if_neg refused]
        have same : pathPush stack component = pathStep stack component := by
          apply pathPush_eq
          intro named down
          by_contra full
          exact refused ⟨named, down, by omega⟩
        have room' : (pathStep stack component).length ≤ 64 := by
          by_cases dot : component = literal "."
          · rw [pathStep, if_pos dot]
            exact room
          by_cases down : component = literal ".."
          · rw [pathStep, if_neg dot, if_pos down, List.length_dropLast]
            omega
          · have grown := pathStep_length stack component
            have free : stack.length < 64 := by
              by_contra full
              exact refused ⟨dot, down, by omega⟩
            omega
        rw [same, known _ room']
        constructor
        · intro shallow front back cut
          cases front with
          | nil => exact room
          | cons first front =>
              cases cut
              exact shallow front back rfl
        · intro shallow front back cut
          rw [cut] at shallow
          exact shallow (component :: front) back rfl

/-- A table that refuses nothing holds what the reference leaves. -/
theorem foldl_pathPush {stack components : List (List UInt8)}
    (kept : pathRefused stack components = []) :
    components.foldl pathPush stack = components.foldl pathStep stack := by
  induction components generalizing stack with
  | nil => rfl
  | cons component rest known =>
      rw [pathRefused] at kept
      by_cases refused : component ≠ literal "." ∧ component ≠ literal ".." ∧ 64 ≤ stack.length
      · rw [if_pos refused] at kept
        cases kept
      rw [if_neg refused] at kept
      have same : pathPush stack component = pathStep stack component := by
        apply pathPush_eq
        intro named down
        by_contra full
        exact refused ⟨named, down, by omega⟩
      rw [List.foldl_cons, List.foldl_cons, known kept, same]

/-! ## Canonical paths -/

structure PathName (component : List UInt8) : Prop extends IsComponent slash component where
  notDot : component ≠ literal "."
  notDotDot : component ≠ literal ".."

theorem pathStep_names {stack : List (List UInt8)} {component : List UInt8}
    (names : ∀ name ∈ stack, PathName name) (valid : IsComponent slash component) :
    ∀ name ∈ pathStep stack component, PathName name := by
  rw [pathStep]
  split
  · exact names
  rename_i dot
  split
  · exact fun name member => names name (List.mem_of_mem_dropLast member)
  rename_i down
  intro name member
  rcases List.mem_append.mp member with old | new
  · exact names name old
  · rw [List.mem_singleton.mp new]
    exact ⟨valid, dot, down⟩

theorem pathResolve_names {components : List (List UInt8)}
    (valid : ∀ component ∈ components, IsComponent slash component) :
    ∀ name ∈ pathResolve components, PathName name := by
  have run : ∀ (components stack : List (List UInt8)),
      (∀ component ∈ components, IsComponent slash component) →
      (∀ name ∈ stack, PathName name) →
      ∀ name ∈ components.foldl pathStep stack, PathName name := by
    intro components
    induction components with
    | nil => exact fun _ _ names => names
    | cons component rest known =>
        intro stack valid names
        apply known
        · exact fun other member => valid other (List.mem_cons_of_mem _ member)
        · exact pathStep_names names (valid component List.mem_cons_self)
  exact run components [] valid (by simp)

theorem foldl_pathStep_names (stack : List (List UInt8)) {names : List (List UInt8)}
    (valid : ∀ name ∈ names, PathName name) : names.foldl pathStep stack = stack ++ names := by
  induction names generalizing stack with
  | nil => rw [List.foldl_nil, List.append_nil]
  | cons name rest known =>
      have first := valid name List.mem_cons_self
      rw [List.foldl_cons, pathStep_name first.notDot first.notDotDot,
        known _ fun other member => valid other (List.mem_cons_of_mem _ member),
        List.append_assoc, List.singleton_append]

theorem pathBuild_head (components : List (List UInt8)) :
    (pathBuild components).head? = some slash := by
  rw [pathBuild]
  cases components with
  | nil => rfl
  | cons component rest => rw [if_neg (List.cons_ne_nil _ _)]; rfl

theorem pathBuild_absolute (components : List (List UInt8)) :
    pathIsAbsolute (.of (pathBuild components)) = true := by
  rw [pathIsAbsolute, PathArg.of, pathBuild_head]
  rfl

theorem pathTokens_pathBuild {names : List (List UInt8)} (valid : ∀ name ∈ names, PathName name) :
    pathTokens (pathBuild names) = names := by
  rw [pathTokens_eq, pathBuild]
  split
  · rename_i empty
    rw [empty]
    exact tokens_sep []
  · exact tokens_join fun name member => (valid name member).toIsComponent

theorem foldl_pathPush_names_self {names : List (List UInt8)}
    (valid : ∀ name ∈ names, PathName name) (few : names.length ≤ 64) :
    names.foldl pathPush [] = names := by
  have refused : pathRefused [] names = [] := by
    rw [pathRefused_iff _ _ (by simp)]
    rintro front back rfl
    rw [foldl_pathStep_names [] fun name member => valid name (List.mem_append_left back member),
      List.nil_append]
    rw [List.length_append] at few
    omega
  rw [foldl_pathPush refused, foldl_pathStep_names [] valid, List.nil_append]

/-- A canonical path of at most 64 names that fits its buffer is normalised to itself. -/
theorem pathNormalize_pathBuild (base : List UInt8) {names : List (List UInt8)}
    (valid : ∀ name ∈ names, PathName name) (few : names.length ≤ 64)
    (short : (pathBuild names).length < pathMax) :
    pathNormalize base (.of (pathBuild names)) = some (pathBuild names) := by
  have work : pathWork base (.of (pathBuild names)) = pathBuild names := by
    rw [pathWork, if_pos (pathBuild_absolute names)]
    apply List.take_of_length_le
    simp only [PathArg.of, pathMax] at short ⊢
    omega
  rw [pathNormalize, work, pathTokens_pathBuild valid, foldl_pathPush_names_self valid few]
  exact if_pos short

theorem pathResolve_tokens_names (text : List UInt8) :
    ∀ name ∈ pathResolve (pathTokens text), PathName name :=
  pathResolve_names fun _ member => isComponent_of_mem_tokens member

theorem pathNormalized_iff (base : List UInt8) (path : PathArg) :
    PathNormalized base path ↔ PathWithinLimits base path := by
  have whole := pathWork_tokens_iff base path
  have table := pathRefused_iff [] (pathTokens (pathJoined base path)) (by simp)
  constructor
  · intro normalized
    have kept := normalized.kept
    rw [normalized.whole] at kept
    exact ⟨whole.mp normalized.whole, table.mp kept, normalized.fits⟩
  · intro limits
    have seen := whole.mpr limits.uncut
    have kept := table.mpr limits.shallow
    have few := limits.shallow (pathTokens (pathJoined base path)) [] (List.append_nil _).symm
    refine ⟨?_, seen, seen ▸ kept, limits.short, fun other =>
      pathNormalize_pathBuild other (pathResolve_tokens_names _) few limits.short⟩
    rw [pathNormalize, seen, foldl_pathPush kept]
    exact if_pos limits.short

def deepPath : List UInt8 := join slash (List.replicate 65 (literal "a"))

theorem pathNormalize_drops_component : ¬PathNormalized [slash] (.of deepPath) := by
  intro normalized
  have refused : pathRefused [] (pathTokens (pathWork [slash] (.of deepPath))) ≠ [] := by
    decide +kernel
  exact refused normalized.kept

end Trinux
