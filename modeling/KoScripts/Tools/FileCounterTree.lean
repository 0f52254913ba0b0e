import Mathlib.Algebra.BigOperators.Group.List.Basic
import KoScripts.Tools.FileCounter

/-! # The tree counted

What the count of a node should be, and how that of a directory comes from its entries in the order
in which they are read: the regular files in it, and the counts of the directories in it. -/

namespace KoScripts.Tools.FileCounter
open Lib.FileTree

/-! ## The tree -/

/-- The number of regular files at and below a node. -/
def files (n : Node) : Nat := n.places.countP fun p => p.2.isRegular

/-- Every directory at and below a node can be opened. -/
def AllOpen (n : Node) : Prop := ∀ p ∈ n.places, p.2.opens

instance {n : Node} : Decidable (AllOpen n) := inferInstanceAs (Decidable (∀ p ∈ n.places, _))

/-- The count of a node, -1 for the failure. -/
def tally (n : Node) : Int := if AllOpen n then files n else -1

/-- The entries of a directory in the order in which they are read. -/
def listed (fs : FileSystem) (readdir : Loc → List Bytes) (d : Loc) : List (Name × Node) :=
  match fs.root.get d with
  | some n => (readdir d).filterMap (Node.entry n.entries)
  | none => []

def dirs (es : List (Name × Node)) : List (Name × Node) := es.filter fun e => e.2.isDirectory

def regs (es : List (Name × Node)) : Nat := es.countP fun e => e.2.isRegular

variable {fs : FileSystem} {readdir : Loc → List Bytes} {path fpath name : Bytes} {d l : Loc}
  {m n : Node} {es : List (Name × Node)} {e : Name × Node} {r search : Bool}

theorem files_eq : files n = (if n.isRegular then 1 else 0) + (n.entries.map (files ·.2)).sum := by
  rw [files, Node.places_eq, List.countP_cons, Node.placesIn_eq, List.countP_flatMap, Nat.add_comm]
  congr 3
  funext e
  rw [Function.comp_apply, Node.placesAt_eq, List.countP_map]
  rfl

theorem allOpen_iff : AllOpen n ↔ n.opens ∧ ∀ e ∈ n.entries, AllOpen e.2 := by
  rw [AllOpen, Node.places_eq, List.forall_mem_cons]
  refine and_congr_right fun _ => ⟨fun h e he q hq => ?_, fun h p hp => ?_⟩
  · exact h (e.1 :: q.1, q.2) (Node.mem_placesIn.mpr ⟨e, he, q, hq, rfl⟩)
  · obtain ⟨e, he, q, hq, rfl⟩ := Node.mem_placesIn.mp hp
    exact h e he q hq

/-- A node that is no directory is open. -/
theorem allOpen_of_file (h : n.isDirectory = false) : AllOpen n := by
  rw [allOpen_iff]
  cases n with
  | directory => cases h
  | regular | symlink | other => exact ⟨rfl, nofun⟩

theorem files_of_file (h : n.isDirectory = false) : files n = if n.isRegular then 1 else 0 := by
  rw [files_eq]
  cases n with
  | directory => cases h
  | regular | symlink | other => rfl

theorem tally_ne (h : AllOpen n) : tally n ≠ -1 := by
  rw [tally, if_pos h]
  omega

/-! ## A directory listed -/

theorem listed_eq (hd : fs.root.get d = some n) :
    listed fs readdir d = (readdir d).filterMap (Node.entry n.entries) := by
  rw [listed, hd]

theorem entry_dots (hname : name = dot ∨ name = dotdot) : Node.entry es name = none := by
  rw [Option.eq_none_iff_forall_ne_some]
  intro e he
  obtain ⟨-, rfl⟩ := Node.mem_of_entry he
  exact hname.elim e.1.ne_dot e.1.ne_dotdot

/-- Every entry is listed once, whatever the order. -/
theorem listed_perm (hlists : fs.Lists readdir)
    (hd : fs.root.get d = some (.directory r search es)) : (listed fs readdir d).Perm es := by
  obtain ⟨dots, hperm, hdots⟩ := hlists d _ _ es hd
  have hnodup : (es.map Prod.fst).Nodup := (fs.wf.get hd).entries
  have hentries : (es.map (·.1.bytes)).filterMap (Node.entry es) = es := by
    rw [List.filterMap_map]
    calc
      _ = es.filterMap some := List.filterMap_congr fun e he => Node.entry_of_mem hnodup he
      _ = es := List.filterMap_some
  have hnone : dots.filterMap (Node.entry es) = [] :=
    List.filterMap_eq_nil_iff.mpr fun c hc => entry_dots (hdots c hc)
  have hfilter := hperm.filterMap (Node.entry es)
  rw [List.filterMap_append, hentries, hnone, List.append_nil] at hfilter
  rw [listed_eq hd]
  exact hfilter

theorem regs_cons : regs (e :: es) = regs [e] + regs es := by
  have happ : regs ([e] ++ es) = regs [e] + regs es := List.countP_append
  exact happ

theorem dirs_cons : dirs (e :: es) = dirs [e] ++ dirs es := List.filter_append [e] es

theorem regs_directory (h : e.2.isDirectory) : regs [e] = 0 ∧ dirs [e] = [e] := by
  rw [regs, List.countP_singleton, dirs, List.filter_singleton, h]
  cases hnode : e.2 with
  | directory => exact ⟨rfl, rfl⟩
  | regular | symlink | other =>
    rw [hnode] at h
    cases h

theorem regs_file (h : e.2.isDirectory = false) : regs [e] = files e.2 ∧ dirs [e] = [] := by
  rw [files_of_file h, regs, List.countP_singleton, dirs, List.filter_singleton, h]
  exact ⟨rfl, rfl⟩

/-- The files below a directory are those in it and those below the directories in it. -/
theorem sum_files : (es.map (files ·.2)).sum = regs es + ((dirs es).map (files ·.2)).sum := by
  induction es with
  | nil => rfl
  | cons e es ih =>
    rw [List.map_cons, List.sum_cons, ih, regs_cons, dirs_cons, List.map_append, List.sum_append]
    cases hdir : e.2.isDirectory with
    | true =>
      rw [(regs_directory hdir).1, (regs_directory hdir).2, List.map_singleton,
        List.sum_singleton]
      omega
    | false =>
      rw [(regs_file hdir).1, (regs_file hdir).2, List.map_nil, List.sum_nil]
      omega

theorem files_listed (hlists : fs.Lists readdir)
    (hd : fs.root.get d = some (.directory r search es)) :
    files (.directory r search es) = regs (listed fs readdir d) +
      ((dirs (listed fs readdir d)).map (files ·.2)).sum := by
  rw [files_eq, ← sum_files, ((listed_perm hlists hd).map _).sum_eq]
  exact Nat.zero_add _

theorem allOpen_listed (hlists : fs.Lists readdir)
    (hd : fs.root.get d = some (.directory true search es)) :
    AllOpen (.directory true search es) ↔ ∀ e ∈ dirs (listed fs readdir d), AllOpen e.2 := by
  rw [allOpen_iff]
  have hmem (e : Name × Node) : e ∈ es ↔ e ∈ listed fs readdir d :=
    (listed_perm hlists hd).mem_iff.symm
  refine ⟨fun h e he => h.2 e ((hmem e).mpr (List.mem_of_mem_filter he)), fun h => ⟨rfl, ?_⟩⟩
  intro e he
  cases hdir : e.2.isDirectory with
  | true => exact h e (List.mem_filter.mpr ⟨(hmem e).mp he, hdir⟩)
  | false => exact allOpen_of_file hdir

end KoScripts.Tools.FileCounter
