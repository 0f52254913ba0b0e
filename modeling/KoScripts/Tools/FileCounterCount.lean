import KoScripts.Tools.FileCounterPaths

/-! # What countFiles counts

Two signed numbers set a limit to the count: the size of the area for the subdirectories of one
directory, and the count itself. Within it the count is exact, and a directory that is read beyond
it leaves no count. -/

namespace KoScripts.Tools.FileCounter
open Lib.FileTree

variable {fs : FileSystem} {readdir : Loc → List Bytes} {path fpath name : Bytes} {d l : Loc}
  {m n : Node} {es : List (Name × Node)} {e : Name × Node} {r search : Bool}

/-! ## The sum over the subdirectories -/

/-- The first directories that are open, and the one behind them. -/
def counted : List (Name × Node) → List (Name × Node)
  | [] => []
  | e :: es => if AllOpen e.2 then e :: counted es else [e]

/-- The sum of the counts of the first directories that are open. -/
def openSum : List (Name × Node) → Nat
  | [] => 0
  | e :: es => if AllOpen e.2 then files e.2 + openSum es else 0

theorem mem_counted (h : e ∈ counted es) : e ∈ es := by
  induction es with
  | nil => exact h
  | cons e' es ih =>
    rw [counted] at h
    split at h
    case isTrue =>
      obtain rfl | h := List.mem_cons.mp h
      · exact .head es
      · exact .tail e' (ih h)
    case isFalse =>
      rw [List.mem_singleton.mp h]
      exact .head es

theorem openSum_eq (h : ∀ e ∈ es, AllOpen e.2) : openSum es = (es.map (files ·.2)).sum := by
  induction es with
  | nil => rfl
  | cons e es ih =>
    rw [List.forall_mem_cons] at h
    rw [openSum, if_pos h.1, ih h.2, List.map_cons, List.sum_cons]

theorem sumSubdirs_ok {count : Bytes → Answer} {k : Nat} (hsum : k + openSum es < 2 ^ 63)
    (hcount : ∀ e ∈ counted es, (count (callPath fpath e)).ret = .ok (tally e.2)) :
    (sumSubdirs count k (es.map (callPath fpath))).ret =
      .ok (if ∀ e ∈ es, AllOpen e.2 then ((k + openSum es : Nat) : Int) else -1) := by
  induction es generalizing k with
  | nil => rfl
  | cons e es ih =>
    rw [counted] at hcount
    rw [openSum] at hsum ⊢
    rw [List.map_cons, sumSubdirs]
    obtain hopen | hopen := Decidable.em (AllOpen e.2)
    · rw [if_pos hopen, List.forall_mem_cons] at hcount
      rw [if_pos hopen, ← Nat.add_assoc] at hsum
      have hsigned : signed 64 ((k : Int) + tally e.2) = .ok ((k + files e.2 : Nat) : Int) := by
        rw [tally, if_pos hopen, ← Int.natCast_add, signed_eq, if_pos (by omega)]
      simp only [hcount.1, if_neg (tally_ne hopen), hsigned, ih hsum hcount.2, List.forall_mem_cons,
        hopen, true_and, if_true, Nat.add_assoc]
    · rw [if_neg hopen, List.forall_mem_singleton] at hcount
      have htally : tally e.2 = -1 := if_neg hopen
      simp only [hcount, htally, if_true, List.forall_mem_cons, hopen, false_and, if_false]

theorem of_sumSubdirs {count : Bytes → Answer} {k : Nat} {x : Int} (hlt : k < 2 ^ 63)
    (hcount : ∀ e ∈ es, ∀ y, (count (callPath fpath e)).ret = .ok y → y = tally e.2)
    (h : (sumSubdirs count k (es.map (callPath fpath))).ret = .ok x) :
    k + openSum es < 2 ^ 63 ∧
      ∀ e ∈ counted es, (count (callPath fpath e)).ret = .ok (tally e.2) := by
  induction es generalizing k with
  | nil => exact ⟨hlt, nofun⟩
  | cons e es ih =>
    rw [List.forall_mem_cons] at hcount
    rw [List.map_cons, sumSubdirs] at h
    rw [counted, openSum]
    cases hret : (count (callPath fpath e)).ret with
    | error stop =>
      simp only [hret] at h
      cases h
    | ok y =>
      have hy := hcount.1 y hret
      subst hy
      simp only [hret] at h
      obtain hopen | hopen := Decidable.em (AllOpen e.2)
      · rw [if_neg (tally_ne hopen), tally, if_pos hopen, ← Int.natCast_add, signed_eq] at h
        obtain hfits | hover := Nat.lt_or_ge (k + files e.2) (2 ^ 63)
        · rw [if_pos hfits] at h
          obtain ⟨hsum, hrets⟩ := ih hfits hcount.2 h
          rw [if_pos hopen, if_pos hopen, ← Nat.add_assoc, List.forall_mem_cons]
          exact ⟨hsum, hret, hrets⟩
        · rw [if_neg (Nat.not_lt.mpr hover)] at h
          cases h
      · rw [if_neg hopen, if_neg hopen, List.forall_mem_singleton]
        exact ⟨hlt, hret⟩

/-! ## One call -/

/-- The second directory is one whose entries are read by a call for the first. The subdirectories
are called for up to one with something in it that cannot be opened, and that one still is. -/
inductive Reads (fs : FileSystem) (readdir : Loc → List Bytes) : Loc → Loc → Prop
  | here {d : Loc} {search : Bool} {es : List (Name × Node)}
    (hd : fs.root.get d = some (.directory true search es)) : Reads fs readdir d d
  | down {d l : Loc} {search : Bool} {es : List (Name × Node)} {e : Name × Node}
    (hd : fs.root.get d = some (.directory true search es))
    (he : e ∈ counted (dirs (listed fs readdir d)))
    (hl : Reads fs readdir (d ++ [e.1]) l) : Reads fs readdir d l

/-- The subdirectories have room, and the files counted are a `long`. -/
def Fits (fs : FileSystem) (readdir : Loc → List Bytes) (d : Loc) : Prop :=
  (dirs (listed fs readdir d)).length ≤ maxSubdirs ∧
    regs (listed fs readdir d) + openSum (dirs (listed fs readdir d)) < 2 ^ 63

theorem tally_listed (hlists : fs.Lists readdir)
    (hd : fs.root.get d = some (.directory true search es)) :
    tally (.directory true search es) =
      if ∀ e ∈ dirs (listed fs readdir d), AllOpen e.2 then
        ((regs (listed fs readdir d) + openSum (dirs (listed fs readdir d)) : Nat) : Int)
      else -1 := by
  have hopen := allOpen_listed hlists hd
  rw [tally]
  split
  case isTrue h =>
    rw [if_pos (hopen.mp h), openSum_eq (hopen.mp h), files_listed hlists hd]
  case isFalse h => rw [if_neg (hopen.not.mp h)]

theorem tally_closed : tally (.directory false search es) = -1 := by
  rw [tally, if_neg]
  intro h
  exact Bool.false_ne_true (allOpen_iff.mp h).1

/-- The directories counted are entries of the tree. -/
theorem Visits.counted (h : Visits fs path d (.directory true search es))
    (hlists : fs.Lists readdir) (he : e ∈ counted (dirs (listed fs readdir d))) :
    e ∈ es ∧ e.2.isDirectory := by
  have hmem := List.mem_filter.mp (mem_counted he)
  exact ⟨(listed_perm hlists h.get).mem_iff.mp hmem.1, hmem.2⟩

theorem Visits.readEntries_ok (h : Visits fs path d (.directory true search es))
    (hlists : fs.Lists readdir) (hcount : regs (listed fs readdir d) < 2 ^ 63)
    (hdirs : (dirs (listed fs readdir d)).length ≤ maxSubdirs) :
    ∃ init, readEntries fs (strip path) (readdir d) = .ok ((regs (listed fs readdir d) : Int),
      { init, names := (dirs (listed fs readdir d)).map (callPath (strip path)) }) := by
  rw [← Nat.zero_add (List.length _)] at hdirs
  rw [← Nat.zero_add (regs _)] at hcount ⊢
  obtain ⟨init, hfold⟩ := foldlM_readNode (k := 0) Subdirs.room_empty hcount hdirs
  exact ⟨init, (h.readEntries_eq hlists).trans hfold⟩

theorem Visits.of_readEntries {t : Int × Subdirs}
    (h : Visits fs path d (.directory true search es)) (hlists : fs.Lists readdir)
    (hread : readEntries fs (strip path) (readdir d) = .ok t) :
    regs (listed fs readdir d) < 2 ^ 63 ∧ (dirs (listed fs readdir d)).length ≤ maxSubdirs := by
  rw [h.readEntries_eq hlists] at hread
  have hfits := of_foldlM (k := 0) Subdirs.room_empty (by decide) hread
  rw [Nat.zero_add, List.length_nil, Nat.zero_add] at hfits
  exact hfits

/-- A call for a tree in which every directory listed fits returns its count. -/
theorem Visits.countFiles_ok {fuel : Nat} (h : Visits fs path d n) (hlists : fs.Lists readdir)
    (hdir : n.isDirectory) (hfits : ∀ l, Reads fs readdir d l → Fits fs readdir l)
    (hfuel : sizeOf n ≤ fuel) : (countFiles fs readdir fuel path).ret = .ok (tally n) := by
  induction n using Node.induct generalizing d path fuel with
  | step n ih =>
    cases n with
    | regular | symlink | other => cases hdir
    | directory readable search es =>
      cases fuel with
      | zero =>
        rw [Node.directory.sizeOf_spec] at hfuel
        omega
      | succ fuel =>
        cases readable with
        | false =>
          rw [countFiles, h.opendir_closed, tally_closed]
        | true =>
          obtain ⟨hdirs, hsum⟩ := hfits d (.here h.get)
          obtain ⟨init, hread⟩ := h.readEntries_ok hlists (by omega) hdirs
          rw [countFiles, h.opendir]
          simp only [hread]
          rw [tally_listed hlists h.get]
          refine sumSubdirs_ok hsum fun e he => ?_
          obtain ⟨hmem, hsub⟩ := h.counted hlists he
          refine ih e hmem (h.child hmem hsub) hsub (fun l hl => hfits l (.down h.get he hl)) ?_
          have hlt := Node.sizeOf_entry (n := .directory true search es) hmem
          omega

/-- A call that returns has listed directories that fit only, and returns the count. -/
theorem Visits.of_countFiles {fuel : Nat} {x : Int} (h : Visits fs path d n)
    (hlists : fs.Lists readdir) (hdir : n.isDirectory)
    (hret : (countFiles fs readdir fuel path).ret = .ok x) :
    x = tally n ∧ ∀ l, Reads fs readdir d l → Fits fs readdir l := by
  induction fuel generalizing path d n x with
  | zero => cases hret
  | succ fuel ih =>
    cases n with
    | regular | symlink | other => cases hdir
    | directory readable search es =>
      cases readable with
      | false =>
        rw [countFiles, h.opendir_closed] at hret
        cases hret
        refine ⟨tally_closed.symm, fun l hl => ?_⟩
        cases hl with
        | here hget | down hget => cases h.get.symm.trans hget
      | true =>
        rw [countFiles, h.opendir] at hret
        cases hread : readEntries fs (strip path) (readdir d) with
        | error stop =>
          simp only [hread] at hret
          cases hret
        | ok t =>
          obtain ⟨hcount, hdirs⟩ := h.of_readEntries hlists hread
          obtain ⟨init, hok⟩ := h.readEntries_ok hlists hcount hdirs
          cases hread.symm.trans hok
          simp only [hread] at hret
          have hcall (e : Name × Node) (he : e ∈ dirs (listed fs readdir d)) (y : Int)
              (hy : (countFiles fs readdir fuel (callPath (strip path) e)).ret = .ok y) :
              y = tally e.2 ∧ ∀ l, Reads fs readdir (d ++ [e.1]) l → Fits fs readdir l := by
            have hmem := List.mem_filter.mp he
            have hes : e ∈ es := (listed_perm hlists h.get).mem_iff.mp hmem.1
            exact ih (h.child hes hmem.2) hmem.2 hy
          obtain ⟨hsum, hrets⟩ := of_sumSubdirs hcount (fun e he y hy => (hcall e he y hy).1) hret
          refine ⟨?_, fun l hl => ?_⟩
          · rw [sumSubdirs_ok hsum hrets] at hret
            rw [tally_listed hlists h.get]
            exact (Except.ok.inj hret).symm
          · cases hl with
            | here => exact ⟨hdirs, hsum⟩
            | down _ he hl => exact (hcall _ (mem_counted he) _ (hrets _ he)).2 l hl

/-! ## The count -/

/-- The joined path of every entry below the start fits, and `lstat` succeeds on it. -/
def EntriesFound (fs : FileSystem) (path : Bytes) : Prop :=
  ∀ d n, fs.lookup true path = some d → fs.root.get d = some n → ∀ l m, l ≠ [] →
    n.get l = some m →
      (join (strip path) l).length < pathMax ∧ (fs.lstat (join (strip path) l)).isSome

/-- The start is a directory, and it and every directory below it can be opened. -/
def OpensAll (fs : FileSystem) (path : Bytes) (n : Node) : Prop :=
  ∃ d, fs.opendir path = some d ∧ fs.root.get d = some n ∧ ∀ l m, n.get l = some m → m.opens

/-- The count is that of the places of regular files, or -1 for a directory that cannot be
opened. -/
def CountsExactly (fs : FileSystem) (path : Bytes) (x : Int) : Prop :=
  (x = -1 ↔ ¬∃ n, OpensAll fs path n) ∧
    ∀ n, OpensAll fs path n → x = {l | ∃ m, n.get l = some m ∧ m.isRegular}.ncard

theorem allOpen_iff_get (h : n.WF) : AllOpen n ↔ ∀ l m, n.get l = some m → m.opens := by
  rw [AllOpen, Prod.forall]
  exact forall₂_congr fun l m => imp_congr_left (Node.mem_places_iff h)

theorem EntriesFound.visits (h : EntriesFound fs path) (hopendir : fs.opendir path = some d) :
    ∃ search es, Visits fs path d (.directory true search es) := by
  obtain ⟨hlookup, search, es, hget⟩ := FileSystem.opendir_some hopendir
  exact ⟨search, es, hlookup, hget, fun l m hl hm => (h d _ hlookup hget l m hl hm).1,
    fun l m hl hm => (h d _ hlookup hget l m hl hm).2⟩

theorem Visits.countsExactly (h : Visits fs path d (.directory true search es)) :
    CountsExactly fs path (tally (.directory true search es)) := by
  have hwf := fs.wf.get h.get
  have hopendir := h.opendir
  have hnode (n : Node) (hn : OpensAll fs path n) :
      n = .directory true search es ∧ AllOpen n := by
    obtain ⟨d', hd', hget, hopen⟩ := hn
    cases hopendir.symm.trans hd'
    cases h.get.symm.trans hget
    exact ⟨rfl, (allOpen_iff_get hwf).mpr hopen⟩
  refine ⟨⟨fun htally hn => ?_, fun hn => if_neg fun hopen => ?_⟩, fun n hn => ?_⟩
  · obtain ⟨n, hn⟩ := hn
    obtain ⟨rfl, hopen⟩ := hnode n hn
    exact tally_ne hopen htally
  · exact hn ⟨_, d, hopendir, h.get, (allOpen_iff_get hwf).mp hopen⟩
  · obtain ⟨rfl, hopen⟩ := hnode n hn
    rw [tally, if_pos hopen, files, Node.countP_places hwf]

/-- The count is exact if and only if no directory that is read has more subdirectories than the
area for them can be enlarged to, and the files counted are a `long`. -/
theorem countFiles_counts_iff (hlists : fs.Lists readdir) (hfound : EntriesFound fs path) :
    (∃ fuel x, (countFiles fs readdir fuel path).ret = .ok x ∧ CountsExactly fs path x) ↔
      ∀ d l, fs.opendir path = some d → Reads fs readdir d l → Fits fs readdir l := by
  constructor
  · rintro ⟨fuel, x, hret, -⟩ d l hopendir hl
    obtain ⟨search, es, h⟩ := hfound.visits hopendir
    exact (h.of_countFiles hlists rfl hret).2 l hl
  · intro hfits
    cases hopendir : fs.opendir path with
    | none =>
      have hnone (n : Node) : ¬OpensAll fs path n := fun ⟨d, hd, _⟩ =>
        nomatch hopendir.symm.trans hd
      refine ⟨1, -1, ?_, ⟨fun _ ⟨n, hn⟩ => hnone n hn, fun _ => rfl⟩, fun n hn => ?_⟩
      · rw [countFiles, hopendir]
      · exact absurd hn (hnone n)
    | some d =>
      obtain ⟨search, es, h⟩ := hfound.visits hopendir
      exact ⟨_, _, h.countFiles_ok hlists rfl (fun l => hfits d l hopendir) Nat.le.refl,
        h.countsExactly⟩

def nameA : Name := ⟨[0x61], by decide, by decide, by decide, by decide⟩

def nameB : Name := ⟨[0x62], by decide, by decide, by decide, by decide⟩

/-- The entries in their order in the tree, and `.` and `..` behind them. -/
def inOrder (fs : FileSystem) (d : Loc) : List Bytes :=
  ((fs.root.get d).elim [] fun n => n.entries.map (·.1.bytes)) ++ [dot, dotdot]

theorem lists_inOrder (fs : FileSystem) : fs.Lists (inOrder fs) := by
  intro d r search es hd
  refine ⟨[dot, dotdot], ?_, fun c hc => ?_⟩
  · rw [inOrder, hd]
    rfl
  · rw [List.mem_cons, List.mem_singleton] at hc
    exact hc

/-- A file and a directory with a file and with a link to the root. -/
def sampleTree : Node := .directory true true
  [(nameA, .regular), (nameB, .directory true true [(nameA, .regular), (nameB, .symlink [slash])])]

def sample : FileSystem := ⟨.directory true true [(nameA, sampleTree)], by decide, []⟩

theorem opendir_sample : sample.opendir [0x61, slash] = some [nameA] := by decide +kernel

theorem get_sample : sample.root.get [nameA] = some sampleTree := rfl

theorem wf_sampleTree : sampleTree.WF := by decide

theorem entriesFound_sample : EntriesFound sample [0x61, slash] := by
  have hplaces : ∀ p ∈ sampleTree.places, p.1 ≠ [] →
      (join (strip [0x61, slash]) p.1).length < pathMax ∧
        (sample.lstat (join (strip [0x61, slash]) p.1)).isSome := by decide +kernel
  intro d n hd hn l m hl hm
  cases (FileSystem.opendir_some opendir_sample).1.symm.trans hd
  cases get_sample.symm.trans hn
  exact hplaces (l, m) ((Node.mem_places_iff wf_sampleTree).mpr hm) hl

theorem countsExactly_sample : CountsExactly sample [0x61, slash] 2 := by
  have hopen : AllOpen sampleTree := by decide
  have hcount : sampleTree.places.countP (fun p => p.2.isRegular) = 2 := by decide
  refine ⟨⟨nofun, fun hno => (hno ⟨sampleTree, ?_⟩).elim⟩, fun n hn => ?_⟩
  · exact ⟨[nameA], opendir_sample, get_sample, (allOpen_iff_get wf_sampleTree).mp hopen⟩
  · obtain ⟨d, hd, hn, -⟩ := hn
    cases opendir_sample.symm.trans hd
    cases get_sample.symm.trans hn
    rw [← Node.countP_places wf_sampleTree, hcount]
    rfl

theorem countFiles_counts_sample : CountsExactly sample [0x61, slash] 2 ∧
    ∀ d l, sample.opendir [0x61, slash] = some d → Reads sample (inOrder sample) d l →
      Fits sample (inOrder sample) l :=
  ⟨countsExactly_sample, (countFiles_counts_iff (lists_inOrder sample) entriesFound_sample).mp
    ⟨10, 2, by decide +kernel, countsExactly_sample⟩⟩

/-! ## A directory with more subdirectories -/

def consName (c : UInt8) (hslash : c ≠ slash) (hdot : c ≠ 0x2e) (name : Name) : Name where
  bytes := c :: name.bytes
  ne_nil := nofun
  no_slash h := (List.mem_cons.mp h).elim (fun heq => hslash heq.symm) name.no_slash
  ne_dot h := hdot (List.cons.inj h).1
  ne_dotdot h := hdot (List.cons.inj h).1

/-- The names of the given number of letters `a` and `b` and an `a` behind them. -/
def words : Nat → List Name
  | 0 => [nameA]
  | n + 1 => (words n).map (consName 0x61 (by decide) (by decide)) ++
      (words n).map (consName 0x62 (by decide) (by decide))

theorem length_words (n : Nat) : (words n).length = 2 ^ n := by
  induction n with
  | zero => rfl
  | succ n ih => rw [words, List.length_append, List.length_map, List.length_map, ih, Nat.pow_succ,
      Nat.mul_two]

theorem length_bytes_of_mem {n : Nat} {name : Name} (h : name ∈ words n) :
    name.bytes.length = n + 1 := by
  induction n generalizing name with
  | zero =>
    rw [List.mem_singleton.mp h]
    rfl
  | succ n ih =>
    obtain h | h := List.mem_append.mp h
    · obtain ⟨name, hname, rfl⟩ := List.mem_map.mp h
      exact congrArg Nat.succ (ih hname)
    · obtain ⟨name, hname, rfl⟩ := List.mem_map.mp h
      exact congrArg Nat.succ (ih hname)

theorem nodup_words (n : Nat) : (words n).Nodup := by
  induction n with
  | zero => exact List.nodup_singleton nameA
  | succ n ih =>
    have hinj (c : UInt8) (hslash : c ≠ slash) (hdot : c ≠ 0x2e) :
        Function.Injective (consName c hslash hdot) := fun name name' h =>
      Name.ext_iff'.mpr (List.cons.inj (congrArg Name.bytes h)).2
    refine (ih.map (hinj _ _ _)).append (ih.map (hinj _ _ _)) fun name h h' => ?_
    obtain ⟨_, -, rfl⟩ := List.mem_map.mp h
    obtain ⟨_, -, heq⟩ := List.mem_map.mp h'
    have hfirst := (List.cons.inj (congrArg Name.bytes heq)).1
    cases hfirst

/-- A root with an empty directory under every word. -/
def crowdedTree (n : Nat) : Node :=
  .directory true true ((words n).map fun name => (name, .directory true true []))

theorem wf_crowdedTree (n : Nat) : (crowdedTree n).WF := by
  intro p hp
  rw [Node.places_eq, List.mem_cons] at hp
  obtain rfl | hp := hp
  · rw [crowdedTree, Node.entries, List.map_map]
    exact (List.map_id (words n)).symm ▸ nodup_words n
  · obtain ⟨e, he, q, hq, rfl⟩ := Node.mem_placesIn.mp hp
    obtain ⟨name, -, rfl⟩ := List.mem_map.mp he
    cases List.mem_singleton.mp hq
    exact List.nodup_nil

def crowded (n : Nat) : FileSystem := ⟨crowdedTree n, wf_crowdedTree n, []⟩

theorem crowded_root (n : Nat) : (crowded n).root.get [] = some (crowdedTree n) := rfl

theorem lookup_crowded (n : Nat) : (crowded n).lookup true [slash] = some [] := rfl

theorem entriesFound_crowded {n : Nat} (hn : n < 4000) : EntriesFound (crowded n) [slash] := by
  intro d m hd hm l k hl hk
  cases (lookup_crowded n).symm.trans hd
  cases (crowded_root n).symm.trans hm
  have hplace := (Node.mem_places_iff (wf_crowdedTree n)).mpr hk
  rw [Node.places_eq, List.mem_cons] at hplace
  obtain heq | hplace := hplace
  · exact absurd (congrArg Prod.fst heq) hl
  · obtain ⟨e, he, q, hq, heq⟩ := Node.mem_placesIn.mp hplace
    obtain ⟨name, hname, rfl⟩ := List.mem_map.mp he
    cases List.mem_singleton.mp hq
    cases heq
    have hlt : (strip [slash] ++ slash :: name.bytes).length < pathMax := by
      have hlen := length_bytes_of_mem hname
      rw [List.length_append, List.length_cons, hlen]
      exact Nat.lt_of_lt_of_le (Nat.add_lt_add_left (Nat.add_lt_add_right hn 2) 0) (by decide)
    have hstat := (names_strip (lookup_crowded n)).lstat_entry (crowded_root n)
      (Node.entry_of_mem (wf_crowdedTree n).entries he) hlt
    have hjoin : join (strip [slash]) [name] = strip [slash] ++ slash :: name.bytes :=
      join_singleton (e := (name, .other))
    rw [hjoin, hstat]
    exact ⟨hlt, rfl⟩

theorem dirs_crowded (n : Nat) :
    (dirs (listed (crowded n) (inOrder (crowded n)) [])).length = 2 ^ n := by
  have hperm := listed_perm (lists_inOrder (crowded n)) (crowded_root n)
  rw [dirs, (hperm.filter _).length_eq, List.filter_eq_self.mpr, List.length_map, length_words]
  intro e he
  obtain ⟨name, -, rfl⟩ := List.mem_map.mp he
  rfl

/-- At subdirectory 1342177281 the size of the area is doubled once more and overflows. -/
theorem countFiles_crowded : (crowded 31).Lists (inOrder (crowded 31)) ∧
    EntriesFound (crowded 31) [slash] ∧
    ¬∃ fuel x, (countFiles (crowded 31) (inOrder (crowded 31)) fuel [slash]).ret = .ok x ∧
      CountsExactly (crowded 31) [slash] x := by
  have hlists := lists_inOrder (crowded 31)
  have hfound : EntriesFound (crowded 31) [slash] := entriesFound_crowded (by decide)
  refine ⟨hlists, hfound, ?_⟩
  rintro ⟨fuel, x, hret, -⟩
  have hopendir : (crowded 31).opendir [slash] = some [] := rfl
  obtain ⟨search, es, h⟩ := hfound.visits hopendir
  obtain ⟨hfits, -⟩ := (h.of_countFiles hlists rfl hret).2 [] (.here (crowded_root 31))
  rw [dirs_crowded] at hfits
  exact absurd hfits (by decide)

end KoScripts.Tools.FileCounter
