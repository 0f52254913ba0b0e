import KoScripts.Tools.FileCounterTree

/-! # The paths of the calls

The recursion runs on paths. As long as the joined paths fit and `lstat` finds what is there, the
path of a call with a slash and a name behind it leads to the entry of that name: the loop over the
entries reads the nodes of the tree, and the calls go to its directories. -/

namespace KoScripts.Tools.FileCounter
open Lib.FileTree

variable {fs : FileSystem} {readdir : Loc → List Bytes} {path fpath name : Bytes} {d l : Loc}
  {m n : Node} {es : List (Name × Node)} {e : Name × Node} {r search : Bool}

/-- The joined path of a place below. -/
def join (fpath : Bytes) (l : Loc) : Bytes := fpath ++ l.flatMap fun name => slash :: name.bytes

/-- A call for a directory with paths below it that fit and lead to something. -/
structure Visits (fs : FileSystem) (path : Bytes) (d : Loc) (n : Node) : Prop where
  lookup : fs.lookup true path = some d
  get : fs.root.get d = some n
  fits : ∀ l m, l ≠ [] → n.get l = some m → (join (strip path) l).length < pathMax
  found : ∀ l m, l ≠ [] → n.get l = some m → (fs.lstat (join (strip path) l)).isSome

/-- The path of the call for a subdirectory. -/
def callPath (fpath : Bytes) (e : Name × Node) : Bytes := fpath ++ slash :: e.1.bytes

theorem join_cons {name : Name} :
    join fpath (name :: l) = join (fpath ++ slash :: name.bytes) l := by
  rw [join, join, List.flatMap_cons, ← List.append_assoc]

theorem join_singleton : join fpath [e.1] = callPath fpath e := by
  rw [join_cons, join, List.flatMap_nil, List.append_nil, callPath]

theorem strip_callPath : strip (callPath fpath e) = callPath fpath e :=
  strip_child e.1.ne_nil e.1.no_slash

namespace Visits

theorem get_entry (h : Visits fs path d n) (he : e ∈ n.entries) : n.get [e.1] = some e.2 := by
  have hnodup := (fs.wf.get h.get).entries
  rw [Node.get, Node.entry_of_mem hnodup he]
  rfl

theorem fits_entry (h : Visits fs path d n) (he : e ∈ n.entries) :
    (callPath (strip path) e).length < pathMax := by
  have hfits := h.fits [e.1] e.2 nofun (h.get_entry he)
  rw [join_singleton] at hfits
  exact hfits

theorem found_entry (h : Visits fs path d n) (he : e ∈ n.entries) :
    (fs.lstat (callPath (strip path) e)).isSome := by
  have hfound := h.found [e.1] e.2 nofun (h.get_entry he)
  rw [join_singleton] at hfound
  exact hfound

/-- A directory with entries may be searched. -/
theorem searchable (h : Visits fs path d (.directory r search es)) (he : e ∈ es) :
    search = true :=
  (names_strip h.lookup).searchable e.1.no_slash e.1.ne_nil (h.fits_entry he) h.get
    (h.found_entry he)

theorem child (h : Visits fs path d n) (he : e ∈ n.entries) (hdir : e.2.isDirectory) :
    Visits fs (callPath (strip path) e) (d ++ [e.1]) e.2 := by
  cases n with
  | regular | symlink | other => cases he
  | directory r search es =>
    have hsearch := h.searchable he
    subst hsearch
    have hentry : Node.entry es e.1.bytes = some e :=
      Node.entry_of_mem (fs.wf.get h.get).entries he
    have hnext : fs.next d e.1.bytes = some (.enter (d ++ [e.1])) := by
      rw [FileSystem.next_entry h.get hentry]
      cases hnode : e.2 with
      | directory | regular | other => rfl
      | symlink =>
        rw [hnode] at hdir
        cases hdir
    have hget (l : Loc) : (Node.directory r true es).get (e.1 :: l) = e.2.get l := by
      rw [Node.get, Node.entries, hentry, Option.bind_some]
    refine ⟨?_, Node.get_snoc h.get hentry, fun l m _ hm => ?_, fun l m _ hm => ?_⟩
    · exact (names_strip h.lookup).lookup_enter e.1.no_slash (h.fits_entry he) hnext
    · rw [strip_callPath, callPath, ← join_cons]
      exact h.fits _ m (List.cons_ne_nil _ _) ((hget l).trans hm)
    · rw [strip_callPath, callPath, ← join_cons]
      exact h.found _ m (List.cons_ne_nil _ _) ((hget l).trans hm)

theorem opendir (h : Visits fs path d (.directory true search es)) :
    fs.opendir path = some d := by
  rw [FileSystem.opendir, h.lookup, Option.bind_some, h.get]

theorem opendir_closed (h : Visits fs path d (.directory false search es)) :
    fs.opendir path = none := by
  rw [FileSystem.opendir, h.lookup, Option.bind_some, h.get]

end Visits

/-! ## The entries read -/

/-- `readEntry` on an entry that is found. -/
def readNode (fpath : Bytes) (s : Int × Subdirs) (e : Name × Node) :
    Except Stop (Int × Subdirs) :=
  match e.2 with
  | .regular => (signed 64 (s.1 + 1)).map fun fileCount => (fileCount, s.2)
  | .directory .. => (s.2.push (callPath fpath e)).map fun subdir => (s.1, subdir)
  | _ => .ok s

theorem readNode_directory {t : Int × Subdirs} (h : e.2.isDirectory) :
    readNode fpath t e = (t.2.push (callPath fpath e)).map fun subdir => (t.1, subdir) := by
  rw [readNode]
  cases hnode : e.2 with
  | directory => rfl
  | regular | symlink | other =>
    rw [hnode] at h
    cases h

theorem readNode_file {s : Subdirs} {k : Nat} (h : e.2.isDirectory = false) (hlt : k < 2 ^ 63) :
    readNode fpath ((k : Int), s) e =
      if k + regs [e] < 2 ^ 63 then .ok (((k + regs [e] : Nat) : Int), s)
      else .error .overflow := by
  rw [(regs_file h).1, files_of_file h, readNode]
  cases hnode : e.2 with
  | directory =>
    rw [hnode] at h
    cases h
  | regular =>
    have hsigned := signed_eq 64 (k + 1)
    rw [Int.natCast_succ] at hsigned
    simp only [hsigned, Node.isRegular, if_true]
    split <;> rfl
  | symlink | other => exact (if_pos hlt).symm

theorem readNode_ok (fpath : Bytes) {s : Subdirs} {k : Nat} (hroom : s.Room)
    (hcount : k + regs [e] < 2 ^ 63) (hdirs : s.names.length + (dirs [e]).length ≤ maxSubdirs) :
    ∃ init, readNode fpath ((k : Int), s) e = .ok (((k + regs [e] : Nat) : Int),
        { init, names := s.names ++ (dirs [e]).map (callPath fpath) }) ∧
      Subdirs.Room { init, names := s.names ++ (dirs [e]).map (callPath fpath) } := by
  cases hdir : e.2.isDirectory with
  | true =>
    obtain ⟨hregs, hone⟩ := regs_directory hdir
    rw [hone] at hdirs
    obtain ⟨init, hpush, hroom⟩ := hroom.push (callPath fpath e) hdirs
    rw [readNode_directory hdir, hregs, hone]
    exact ⟨init, congrArg (Except.map fun subdir => ((k : Int), subdir)) hpush, hroom⟩
  | false =>
    rw [readNode_file hdir (by omega), if_pos hcount, (regs_file hdir).2, List.map_nil,
      List.append_nil]
    exact ⟨s.init, rfl, hroom⟩

/-- An entry that is read has had its place. -/
theorem of_readNode {s : Subdirs} {k : Nat} {t : Int × Subdirs} (hroom : s.Room)
    (hlt : k < 2 ^ 63) (h : readNode fpath ((k : Int), s) e = .ok t) :
    k + regs [e] < 2 ^ 63 ∧ s.names.length + (dirs [e]).length ≤ maxSubdirs := by
  have hle := hroom.length_le
  cases hdir : e.2.isDirectory with
  | true =>
    obtain ⟨hregs, hone⟩ := regs_directory hdir
    rw [hregs, hone]
    refine ⟨hlt, Nat.succ_le_of_lt (Nat.lt_of_le_of_ne hle fun hfull => ?_)⟩
    rw [readNode_directory hdir] at h
    simp only [hroom.push_full hfull] at h
    cases h
  | false =>
    rw [readNode_file hdir hlt] at h
    rw [(regs_file hdir).2]
    refine ⟨?_, hle⟩
    split at h
    case isTrue hcount => exact hcount
    case isFalse => cases h

theorem foldlM_readNode {s : Subdirs} {k : Nat} (hroom : s.Room) (hcount : k + regs es < 2 ^ 63)
    (hdirs : s.names.length + (dirs es).length ≤ maxSubdirs) :
    ∃ init, es.foldlM (readNode fpath) ((k : Int), s) = .ok (((k + regs es : Nat) : Int),
      { init, names := s.names ++ (dirs es).map (callPath fpath) }) := by
  induction es generalizing s k with
  | nil =>
    refine ⟨s.init, ?_⟩
    rw [dirs, List.filter_nil, List.map_nil, List.append_nil]
    rfl
  | cons e es ih =>
    rw [regs_cons] at hcount ⊢
    rw [dirs_cons, List.length_append] at hdirs
    obtain ⟨init, hread, hroom⟩ :=
      readNode_ok fpath (e := e) hroom (k := k) (by omega) (by omega)
    obtain ⟨init, hfold⟩ := ih hroom (k := k + regs [e]) (by omega) (by
      rw [List.length_append, List.length_map]
      omega)
    refine ⟨init, ?_⟩
    have hcons : dirs (e :: es) = dirs [e] ++ dirs es := dirs_cons
    rw [List.foldlM_cons, hread, hcons, List.map_append, ← List.append_assoc, ← Nat.add_assoc]
    exact hfold

theorem of_foldlM {s : Subdirs} {k : Nat} {t : Int × Subdirs} (hroom : s.Room) (hlt : k < 2 ^ 63)
    (h : es.foldlM (readNode fpath) ((k : Int), s) = .ok t) :
    k + regs es < 2 ^ 63 ∧ s.names.length + (dirs es).length ≤ maxSubdirs := by
  induction es generalizing s k with
  | nil => exact ⟨hlt, hroom.length_le⟩
  | cons e es ih =>
    rw [List.foldlM_cons] at h
    cases hread : readNode fpath ((k : Int), s) e with
    | error stop =>
      rw [hread] at h
      cases h
    | ok t =>
      obtain ⟨hcount, hdirs⟩ := of_readNode hroom hlt hread
      obtain ⟨init, hok, hroom⟩ := readNode_ok fpath hroom hcount hdirs
      rw [hok] at h
      obtain ⟨hcount, hdirs⟩ := ih hroom hcount h
      rw [List.length_append, List.length_map] at hdirs
      rw [regs_cons, dirs_cons, List.length_append]
      omega

theorem Visits.foldlM_eq {names : List Bytes} {t : Int × Subdirs}
    (h : Visits fs path d (.directory r search es))
    (hnames : ∀ c ∈ names, c ∈ es.map (·.1.bytes) ∨ c = dot ∨ c = dotdot) :
    names.foldlM (readEntry fs (strip path)) t =
      (names.filterMap (Node.entry es)).foldlM (readNode (strip path)) t := by
  induction names generalizing t with
  | nil => rfl
  | cons c names ih =>
    rw [List.forall_mem_cons] at hnames
    rw [List.foldlM_cons]
    obtain hmem | hdots := hnames.1
    · obtain ⟨e, he, rfl⟩ := List.mem_map.mp hmem
      have hentry : Node.entry es e.1.bytes = some e :=
        Node.entry_of_mem (fs.wf.get h.get).entries he
      rw [List.filterMap_cons_some hentry, List.foldlM_cons, readEntry_entry (names_strip h.lookup)
        h.get hentry (h.fits_entry he) (h.found_entry he)]
      exact bind_congr fun _ => ih hnames.2
    · rw [List.filterMap_cons_none (entry_dots hdots), readEntry_dots h.lookup h.get rfl hdots]
      exact ih hnames.2

theorem Visits.readEntries_eq (h : Visits fs path d (.directory r search es))
    (hlists : fs.Lists readdir) : readEntries fs (strip path) (readdir d) =
      (listed fs readdir d).foldlM (readNode (strip path)) (0, { init := 10, names := [] }) := by
  obtain ⟨dots, hperm, hdots⟩ := hlists d _ _ es h.get
  rw [readEntries, h.foldlM_eq, listed_eq h.get]
  · rfl
  · intro c hc
    exact (List.mem_append.mp (hperm.mem_iff.mp hc)).imp_right (hdots c)

end KoScripts.Tools.FileCounter
