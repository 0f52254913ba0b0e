import Mathlib.Data.Int.Order.Basic
import Mathlib.Data.List.Basic
import KoScripts.Lib.PathLookup

/-! # Counting files

`countFiles` of `src/tools/file_counter.c` on a tree of files that stays as it is. The strings it
works with are paths; `fullPath` is the buffer of `PATH_MAX` bytes that `snprintf` fills, and what
does not fit is cut off. A directory is listed to the end before the subdirectories found in it are
counted. Memory is taken to suffice, and so are the stack for the nested calls, each with its
buffer, and the descriptors for the directories they hold open. -/

namespace KoScripts.Tools.FileCounter
open Lib.FileTree

/-- Why there is no count: the calls are nested deeper than the fuel, a signed number overflows, or
a store goes behind the area `subdir` points to. -/
inductive Stop
  | fuel
  | overflow
  | outside
deriving DecidableEq

/-- What a call returns, and the paths of all calls made, itself the first. -/
structure Answer where
  ret : Except Stop Int
  calls : List Bytes

/-- The value of a signed number of the given width. -/
def signed (bits : Nat) (x : Int) : Except Stop Int :=
  if -2 ^ (bits - 1) ≤ x ∧ x < 2 ^ (bits - 1) then .ok x else .error .overflow

/-- The area `subdir` points to, with room for `init` strings; `subsize` of them are stored. -/
structure Subdirs where
  init : Int
  names : List Bytes

def Subdirs.subsize (s : Subdirs) : Int := s.names.length

def Subdirs.push (s : Subdirs) (path : Bytes) : Except Stop Subdirs :=
  (if s.subsize ≥ s.init then signed 32 (s.init * 2) else .ok s.init).bind fun init =>
    if s.subsize < init then .ok { init, names := s.names ++ [path] } else .error .outside

/-- `fpath`: the path without a slash at its end. -/
def strip (path : Bytes) : Bytes := if path.getLast? = some slash then path.dropLast else path

/-- `snprintf(fullPath, PATH_MAX, "%s/%s", fpath, entry->d_name)` -/
def fullPath (fpath name : Bytes) : Bytes := (fpath ++ slash :: name).take (pathMax - 1)

/-- One round of the loop over the entries, on `fileCount` and the subdirectories found. -/
def readEntry (fs : FileSystem) (fpath : Bytes) (s : Int × Subdirs) (name : Bytes) :
    Except Stop (Int × Subdirs) :=
  match fs.lstat (fullPath fpath name) with
  | some .regular => (signed 64 (s.1 + 1)).map fun fileCount => (fileCount, s.2)
  | some (.directory ..) =>
    if name ≠ dot ∧ name ≠ dotdot then
      (s.2.push (fullPath fpath name)).map fun subdir => (s.1, subdir)
    else .ok s
  | _ => .ok s

/-- The loop over the subdirectories, with `count` for the call it makes. -/
def sumSubdirs (count : Bytes → Answer) (fileCount : Int) : List Bytes → Answer
  | [] => ⟨.ok fileCount, []⟩
  | path :: paths =>
    let a := count path
    match a.ret with
    | .error stop => ⟨.error stop, a.calls⟩
    | .ok subDirCount =>
      if subDirCount = -1 then ⟨.ok (-1), a.calls⟩
      else
        match signed 64 (fileCount + subDirCount) with
        | .error stop => ⟨.error stop, a.calls⟩
        | .ok fileCount =>
          let b := sumSubdirs count fileCount paths
          ⟨b.ret, a.calls ++ b.calls⟩

def readEntries (fs : FileSystem) (fpath : Bytes) (names : List Bytes) :
    Except Stop (Int × Subdirs) :=
  names.foldlM (readEntry fs fpath) (0, { init := 10, names := [] })

def countFiles (fs : FileSystem) (readdir : Loc → List Bytes) : Nat → Bytes → Answer
  | 0, path => ⟨.error .fuel, [path]⟩
  | fuel + 1, path =>
    match fs.opendir path with
    | none => ⟨.ok (-1), [path]⟩
    | some d =>
      match readEntries fs (strip path) (readdir d) with
      | .error stop => ⟨.error stop, [path]⟩
      | .ok (fileCount, subdir) =>
        let a := sumSubdirs (countFiles fs readdir fuel) fileCount subdir.names
        ⟨a.ret, path :: a.calls⟩

/-! ## The area for the subdirectories -/

theorem signed_eq (bits n : Nat) :
    signed bits n = if n < 2 ^ (bits - 1) then .ok (n : Int) else .error .overflow := by
  have hpow : 0 ≤ (2 : Int) ^ (bits - 1) := Int.pow_nonneg (by decide)
  have hneg : -2 ^ (bits - 1) ≤ (n : Int) := by omega
  have hlt : (n : Int) < 2 ^ (bits - 1) ↔ n < 2 ^ (bits - 1) := by
    rw [← Int.ofNat_lt, Int.natCast_pow]
    rfl
  exact if_congr ((and_iff_right hneg).trans hlt) rfl rfl

/-- The last size of the area before the doubled size is no `int`. -/
def maxSubdirs : Nat := 10 * 2 ^ 27

/-- The size of the area has been doubled some times, and the strings fit. -/
def Subdirs.Room (s : Subdirs) : Prop :=
  ∃ j ≤ 27, s.init = (10 * 2 ^ j : Nat) ∧ s.names.length ≤ 10 * 2 ^ j

namespace Subdirs
variable {s : Subdirs} {path : Bytes}

theorem room_empty : Room { init := 10, names := [] } := ⟨0, by decide, rfl, by decide⟩

theorem Room.length_le (h : s.Room) : s.names.length ≤ maxSubdirs := by
  obtain ⟨j, hj, -, hlen⟩ := h
  exact Nat.le_trans hlen (Nat.mul_le_mul_left 10 (Nat.pow_le_pow_right (by decide) hj))

theorem push_eq (h : s.subsize < s.init) :
    s.push path = .ok { s with names := s.names ++ [path] } := by
  rw [push, if_neg (Int.not_le.mpr h)]
  exact if_pos h

theorem Room.push (h : s.Room) (path : Bytes) (hlt : s.names.length < maxSubdirs) :
    ∃ init, s.push path = .ok { init, names := s.names ++ [path] } ∧
      Room { init, names := s.names ++ [path] } := by
  obtain ⟨j, hj, hinit, hlen⟩ := h
  obtain hfree | hfull := Nat.lt_or_eq_of_le hlen
  · refine ⟨s.init, push_eq ?_, j, hj, hinit, ?_⟩
    · rw [hinit, subsize]
      exact Int.ofNat_lt.mpr hfree
    · rw [List.length_append]
      exact hfree
  · -- The area is full, and as it is not the last size, the doubled one is an `int`.
    have hj : j < 27 := by
      rw [hfull, maxSubdirs] at hlt
      exact (Nat.pow_lt_pow_iff_right (by decide)).mp (Nat.lt_of_mul_lt_mul_left hlt)
    have hpow : 2 ^ (j + 1) ≤ 2 ^ 27 := Nat.pow_le_pow_right (by decide) hj
    have hdouble : s.init * 2 = (10 * 2 ^ (j + 1) : Nat) := by
      rw [hinit, Nat.pow_succ, ← Nat.mul_assoc]
      rfl
    have hsize : s.subsize < (10 * 2 ^ (j + 1) : Nat) := by
      rw [subsize, hfull, Nat.pow_succ]
      have := Nat.pow_pos (a := 2) (n := j) (by decide)
      omega
    refine ⟨(10 * 2 ^ (j + 1) : Nat), ?_, j + 1, hj, rfl, ?_⟩
    · rw [Subdirs.push, if_pos (by rw [hinit, subsize, hfull]), hdouble, signed_eq,
        if_pos (by omega)]
      exact if_pos hsize
    · rw [List.length_append]
      exact Int.ofNat_lt.mp hsize

theorem Room.push_full (h : s.Room) (hfull : s.names.length = maxSubdirs) :
    s.push path = .error .overflow := by
  obtain ⟨j, hj, hinit, hlen⟩ := h
  have hj : j = 27 := by
    rw [hfull, maxSubdirs] at hlen
    exact Nat.le_antisymm hj ((Nat.pow_le_pow_iff_right (by decide)).mp
      (Nat.le_of_mul_le_mul_left hlen (by decide)))
  subst hj
  rw [Subdirs.push, if_pos (by rw [hinit, subsize, hfull]; rfl), hinit]
  rfl

end Subdirs

/-! ## The paths -/

variable {fs : FileSystem} {path fpath name c : Bytes} {d : Loc} {m : Node}

theorem strip_eq (path : Bytes) : path = strip path ∨ path = strip path ++ [slash] := by
  rw [strip]
  split
  case isTrue h => exact .inr (List.dropLast_append_getLast? slash h).symm
  case isFalse => exact .inl rfl

theorem names_strip (h : fs.lookup true path = some d) : fs.Names (strip path) d := by
  obtain heq | heq := strip_eq path
  · rw [← heq]
    exact FileSystem.names_of_lookup h
  · rw [heq] at h
    exact FileSystem.names_of_slash h

theorem strip_child (hne : c ≠ []) (hc : slash ∉ c) :
    strip (fpath ++ slash :: c) = fpath ++ slash :: c := by
  have hlast : (fpath ++ slash :: c).getLast? = some (c.getLast hne) := by
    rw [List.getLast?_append, List.getLast?_cons_of_ne_nil hne,
      List.getLast?_eq_some_getLast hne]
    rfl
  rw [strip, hlast, if_neg]
  intro heq
  exact hc (Option.some.inj heq ▸ List.getLast_mem hne)

theorem fullPath_eq (hlt : (fpath ++ slash :: name).length < pathMax) :
    fullPath fpath name = fpath ++ slash :: name :=
  List.take_of_length_le (Nat.le_sub_one_of_lt hlt)

/-- What is cut off is at the end of the name. -/
theorem fullPath_cut (h : fpath.length ≤ pathMax - 1) :
    fullPath fpath name = fpath ++ (slash :: name).take (pathMax - 1 - fpath.length) := by
  rw [fullPath, List.take_append, List.take_of_length_le h]

/-! ## One entry -/

theorem length_strip_le (h : fs.lookup true path = some d) :
    (strip path).length ≤ pathMax - 1 ∧
      ((strip path).length = pathMax - 1 → strip path = path) := by
  have hlt := (FileSystem.lookup_some h).2.1
  obtain heq | heq := strip_eq path
  · exact ⟨heq ▸ Nat.le_sub_one_of_lt hlt, fun _ => heq.symm⟩
  · rw [heq, List.length_append, List.length_singleton] at hlt
    exact ⟨by omega, by omega⟩

theorem take_dots (hname : name = dot ∨ name = dotdot) (n : Nat) :
    name.take n = [] ∨ name.take n = dot ∨ name.take n = dotdot := by
  obtain rfl | rfl := hname
  · cases n with
    | zero => exact .inl rfl
    | succ n => exact .inr (.inl (List.take_of_length_le (Nat.le_add_left 1 n)))
  · cases n with
    | zero => exact .inl rfl
    | succ n =>
      cases n with
      | zero => exact .inr (.inl rfl)
      | succ n => exact .inr (.inr (List.take_of_length_le (Nat.le_add_left 2 n)))

/-- `.` and `..` name no file, not even where they do not fit. -/
theorem lstat_dots (h : fs.lookup true path = some d) (hd : fs.root.get d = some m)
    (hdir : m.isDirectory) (hname : name = dot ∨ name = dotdot) :
    fs.lstat (fullPath (strip path) name) ≠ some .regular := by
  obtain ⟨hle, hpath⟩ := length_strip_le h
  rw [fullPath_cut hle]
  intro hreg
  cases hroom : pathMax - 1 - (strip path).length with
  | zero =>
    -- Nothing of the name fits, and the path itself is looked at.
    rw [hroom, List.take_zero, List.append_nil, hpath (by omega), FileSystem.lstat] at hreg
    obtain hl | ⟨l, target, hl, hget⟩ := FileSystem.lookup_nofollow h
    · rw [hl, Option.bind_some, hd] at hreg
      cases hreg
      cases hdir
    · rw [hl, Option.bind_some, hget] at hreg
      cases hreg
  | succ n =>
    rw [hroom, List.take_succ_cons] at hreg
    have hcut := take_dots hname n
    have hslash : slash ∉ name.take n := by
      obtain hcut | hcut | hcut := hcut <;> rw [hcut] <;> decide
    have hlt : (strip path ++ slash :: name.take n).length < pathMax := by
      rw [List.length_append, List.length_cons]
      have := List.length_take_le n name
      omega
    obtain ⟨l, hnext, hget⟩ | ⟨target, heq⟩ := (names_strip h).lstat_some hslash hlt hreg
    · obtain rfl | rfl := FileSystem.next_dots hcut hnext
      · rw [hd] at hget
        cases hget
        cases hdir
      · obtain ⟨m', hm', hdir'⟩ := Node.get_dropLast hd hdir
        rw [hm'] at hget
        cases hget
        cases hdir'
    · cases heq

/-- `.` and `..` are neither counted nor listed. -/
theorem readEntry_dots {s : Int × Subdirs} (h : fs.lookup true path = some d)
    (hd : fs.root.get d = some m) (hdir : m.isDirectory) (hname : name = dot ∨ name = dotdot) :
    readEntry fs (strip path) s name = .ok s := by
  rw [readEntry]
  split
  case h_1 heq => exact absurd heq (lstat_dots h hd hdir hname)
  case h_2 => exact if_neg fun hne => hname.elim hne.1 hne.2
  case h_3 => rfl

theorem readEntry_entry {r searchable : Bool} {es : List (Name × Node)} {e : Name × Node}
    {s : Int × Subdirs} (h : fs.Names fpath d)
    (hd : fs.root.get d = some (.directory r searchable es)) (he : Node.entry es name = some e)
    (hlt : (fpath ++ slash :: name).length < pathMax)
    (hfound : (fs.lstat (fpath ++ slash :: name)).isSome) :
    readEntry fs fpath s name =
      match e.2 with
      | .regular => (signed 64 (s.1 + 1)).map fun fileCount => (fileCount, s.2)
      | .directory .. => (s.2.push (fpath ++ slash :: name)).map fun subdir => (s.1, subdir)
      | _ => .ok s := by
  have hbytes : e.1.bytes = name := (Node.mem_of_entry he).2
  have hsearch : searchable = true :=
    h.searchable (hbytes ▸ e.1.no_slash) (hbytes ▸ e.1.ne_nil) hlt hd hfound
  subst hsearch
  have hne : name ≠ dot ∧ name ≠ dotdot := hbytes ▸ ⟨e.1.ne_dot, e.1.ne_dotdot⟩
  rw [readEntry, fullPath_eq hlt, h.lstat_entry hd he hlt]
  cases e.2 with
  | directory => exact if_pos hne
  | regular | symlink | other => rfl

end KoScripts.Tools.FileCounter
