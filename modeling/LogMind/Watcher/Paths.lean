import Mathlib.Data.List.AList
import LogMind.Core.Strings

/-!
# The paths that the watcher spells

A registered pattern is split into a directory and a pattern for the names in it. The
path of a file is then spelled twice: `scan_directory` takes it from the iterator of the
directory and `inotify_loop` joins it itself. Both spellings lead to the same file, and
they are the same string for every directory but ".".
-/

namespace LogMind

def slash : UInt8 := 47

namespace FileWatcher

/-- The current directory. -/
def dot : Bytes := [46]

/-- The last slash of a path. -/
def lastSlash (path : Bytes) : Option Nat := rfindByte path slash path.length

/-- `parent_dir_of`. -/
def parentDirOf (path : Bytes) : Bytes :=
  match lastSlash path with
  | none => dot
  | some sep => if sep = 0 then [slash] else path.take sep

/-- `filename_of`. -/
def filenameOf (path : Bytes) : Bytes :=
  match lastSlash path with
  | none => path
  | some sep => path.drop (sep + 1)

/-- `join_path`, with which the events spell a path. -/
def joinPath (dir name : Bytes) : Bytes :=
  if dir = [] ∨ dir = dot then name
  else if dir.getLast? = some slash then dir ++ name
  else dir ++ slash :: name

/-- The path of an entry of `directory_iterator`: the `operator/` of `std::filesystem`. -/
def iterPath (dir name : Bytes) : Bytes :=
  if dir = [] ∨ dir.getLast? = some slash then dir ++ name else dir ++ slash :: name

/-- `m_dir_patterns`. -/
abbrev DirPatterns := AList fun _ : Bytes => List Bytes

/-- `register_pattern`. -/
def registerPattern (patterns : DirPatterns) (dir pattern : Bytes) : DirPatterns :=
  let known := (patterns.lookup dir).getD []
  if known.contains pattern then patterns else patterns.insert dir (known ++ [pattern])

/-- `watch`. -/
def watch (patterns : DirPatterns) (path : Bytes) : DirPatterns :=
  registerPattern patterns (parentDirOf path) (filenameOf path)

/-- `watch_directory`. -/
def watchDirectory (patterns : DirPatterns) (dir pattern : Bytes) : DirPatterns :=
  registerPattern patterns dir (if pattern = [] then ascii "*" else pattern)

/-- `add_patterns`. -/
def addPatterns (patterns : DirPatterns) (added : List Bytes) : DirPatterns :=
  added.foldl (fun patterns pattern =>
    if pattern.any fun c => c ∈ ascii "*?[" then
      watchDirectory patterns (parentDirOf pattern) (filenameOf pattern)
    else watch patterns pattern) patterns

/-- `matches`. -/
def matching (fnmatch : Bytes → Bytes → Bool) (patterns : DirPatterns) (dir name : Bytes) : Bool :=
  ((patterns.lookup dir).getD []).any fun pattern => fnmatch pattern name

theorem lastSlash_of_notMem {path : Bytes} (h : slash ∉ path) : lastSlash path = none := by
  have hnone : path.reverse.findIdx? (· == slash) = none := by
    rw [List.findIdx?_eq_none_iff]
    intro c hc
    have hne : c ≠ slash := fun heq => h (heq ▸ List.mem_reverse.mp hc)
    simpa using hne
  rw [lastSlash, rfindByte, List.take_of_length_le (Nat.le_succ _), hnone]
  rfl

theorem lastSlash_append {name : Bytes} (dir : Bytes) (h : slash ∉ name) :
    lastSlash (dir ++ slash :: name) = some dir.length := by
  have hnone : name.reverse.findIdx? (· == slash) = none := by
    rw [List.findIdx?_eq_none_iff]
    intro c hc
    have hne : c ≠ slash := fun heq => h (heq ▸ List.mem_reverse.mp hc)
    simpa using hne
  have hreverse : (dir ++ slash :: name).reverse = name.reverse ++ slash :: dir.reverse := by simp
  rw [lastSlash, rfindByte, List.take_of_length_le (Nat.le_succ _), hreverse,
    List.findIdx?_append, hnone, List.findIdx?_cons, if_pos (by simp)]
  simp

theorem parentDirOf_of_notMem {path : Bytes} (h : slash ∉ path) : parentDirOf path = dot := by
  rw [parentDirOf, lastSlash_of_notMem h]

theorem filenameOf_of_notMem {path : Bytes} (h : slash ∉ path) : filenameOf path = path := by
  rw [filenameOf, lastSlash_of_notMem h]

theorem parentDirOf_append {name : Bytes} (dir : Bytes) (h : slash ∉ name) :
    parentDirOf (dir ++ slash :: name) = if dir = [] then [slash] else dir := by
  rw [parentDirOf, lastSlash_append dir h]
  simp only [List.length_eq_zero_iff, List.take_left]

theorem filenameOf_append {name : Bytes} (dir : Bytes) (h : slash ∉ name) :
    filenameOf (dir ++ slash :: name) = name := by
  rw [filenameOf, lastSlash_append dir h]
  simp only
  rw [← List.drop_drop, List.drop_left]
  rfl

/-- The two spellings of a path are the same, but for the current directory. -/
theorem joinPath_eq_iterPath_iff (dir name : Bytes) :
    joinPath dir name = iterPath dir name ↔ dir ≠ dot := by
  unfold joinPath iterPath
  by_cases hnil : dir = []
  · subst hnil
    simp [dot]
  · by_cases hdot : dir = dot
    · subst hdot
      have hlength : name ≠ dot ++ slash :: name := by
        intro heq
        have hlength := congrArg List.length heq
        rw [List.length_append, List.length_cons] at hlength
        omega
      simpa [dot, slash] using hlength
    · simp [hnil, hdot]

theorem joinPath_dot (name : Bytes) : joinPath dot name = name := if_pos (.inr rfl)

theorem slash_mem_iterPath {dir : Bytes} (h : dir ≠ []) (name : Bytes) :
    slash ∈ iterPath dir name := by
  unfold iterPath
  split
  case isTrue hslash =>
    exact List.mem_append_left name (List.mem_of_getLast? (hslash.resolve_left h))
  case isFalse => exact List.mem_append_right dir List.mem_cons_self

end FileWatcher

/-- A name in a directory. -/
structure FileName where
  bytes : Bytes
  nonempty : bytes ≠ []
  no_slash : slash ∉ bytes
  no_dots : bytes ≠ [46] ∧ bytes ≠ [46, 46]
  deriving DecidableEq

/-- The name at the end of a path, if there is one. -/
def FileName.ofBytes (bytes : Bytes) : Option FileName :=
  if h : bytes ≠ [] ∧ slash ∉ bytes ∧ bytes ≠ [46] ∧ bytes ≠ [46, 46] then
    some ⟨bytes, h.1, h.2.1, h.2.2⟩
  else none

theorem FileName.ofBytes_bytes (name : FileName) : FileName.ofBytes name.bytes = some name :=
  dif_pos ⟨name.nonempty, name.no_slash, name.no_dots⟩

/-- The directories that paths lead to. A slash behind a path does not change it. -/
structure DirectoryTree where
  resolve : Bytes → Option Nat
  resolve_nil : resolve [] = none
  resolve_slash : ∀ dir ≠ [], resolve (dir ++ [slash]) = resolve dir

namespace FileWatcher

/-- Where the path of an entry leads. -/
theorem iterPath_leads (tree : DirectoryTree) {dir : Bytes} (h : dir ≠ []) (name : FileName) :
    tree.resolve (parentDirOf (iterPath dir name.bytes)) = tree.resolve dir ∧
      filenameOf (iterPath dir name.bytes) = name.bytes := by
  unfold iterPath
  split
  case isTrue hslash =>
    obtain ⟨front, rfl⟩ := List.getLast?_eq_some_iff.mp (hslash.resolve_left h)
    rw [List.append_assoc, List.singleton_append, parentDirOf_append _ name.no_slash,
      filenameOf_append _ name.no_slash]
    refine ⟨?_, rfl⟩
    split
    case isTrue hnil => rw [hnil, List.nil_append]
    case isFalse hfront => exact (tree.resolve_slash front hfront).symm
  case isFalse =>
    rw [parentDirOf_append _ name.no_slash, filenameOf_append _ name.no_slash, if_neg h]
    exact ⟨rfl, rfl⟩

/-- Where the path of an event leads. -/
theorem joinPath_leads (tree : DirectoryTree) {dir : Bytes} (h : dir ≠ []) (name : FileName) :
    tree.resolve (parentDirOf (joinPath dir name.bytes)) = tree.resolve dir ∧
      filenameOf (joinPath dir name.bytes) = name.bytes := by
  by_cases hdot : dir = dot
  · rw [hdot, joinPath_dot, parentDirOf_of_notMem name.no_slash,
      filenameOf_of_notMem name.no_slash]
    exact ⟨rfl, rfl⟩
  · rw [(joinPath_eq_iterPath_iff dir name.bytes).mpr hdot]
    exact iterPath_leads tree h name

end FileWatcher

end LogMind
