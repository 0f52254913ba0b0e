import KoScripts.Tools.FileCounterResources

/-! # The directories open at a time

A call holds its directory open while it counts the subdirectories, so a process that can have so
many directories open counts trees that are less deep, and no others. -/

namespace KoScripts.Tools.FileCounter
open Lib Lib.FileTree

variable {fs : FileSystem} {readdir : Loc → List Bytes} {path : Bytes} {d : Loc}
  {limit fuel i : Nat}

/-! ## The nesting of the calls -/

/-- How deep the calls with an open directory are nested. -/
def nesting (fs : FileSystem) (readdir : Loc → List Bytes) : Nat → Bytes → Nat
  | 0, _ => 0
  | fuel + 1, path =>
    match fs.opendir path with
    | none => 0
    | some d =>
      match readEntries fs (strip path) (readdir d) with
      | .error _ => 1
      | .ok (_, subdir) => 1 + (subdir.names.map (nesting fs readdir fuel)).foldr max 0

theorem foldr_max_le_iff {k : Nat} {ns : List Nat} : ns.foldr max 0 ≤ k ↔ ∀ n ∈ ns, n ≤ k := by
  induction ns with
  | nil => exact iff_of_true (Nat.zero_le k) (List.forall_mem_nil _)
  | cons n ns ih => rw [List.foldr_cons, Nat.max_le, ih, List.forall_mem_cons]

theorem nesting_of_read {k : Int} {subdir : Subdirs} (hopendir : fs.opendir path = some d)
    (hread : readEntries fs (strip path) (readdir d) = .ok (k, subdir)) :
    nesting fs readdir (fuel + 1) path =
      1 + (subdir.names.map (nesting fs readdir fuel)).foldr max 0 := by
  simp only [nesting, hopendir, hread]

/-- The calls of the loop in a process with a limit, where those without one return. -/
theorem sumSubdirsHeld_limit {k x : Int} {paths : List (Bytes × Nat)} {h : Held} (hk : 0 ≤ k)
    (hsub : i ∈ h.areas.live) (hstrings : ∀ p ∈ paths, p.2 ∈ h.areas.live)
    (hcard : h.dirs.live.card ≤ limit)
    (hcount : ∀ q y, (countFiles fs readdir fuel q).ret = .ok y → ∀ h : Held,
      ∃ t, countFilesHeld fs readdir limit fuel q h =
        .ok (if h.dirs.live.card + nesting fs readdir fuel q ≤ limit then y else -1, t))
    (hret : (sumSubdirs (countFiles fs readdir fuel) k (paths.map Prod.fst)).ret = .ok x) :
    ∃ sum t, sumSubdirsHeld (countFilesHeld fs readdir limit fuel) i k paths h = .ok (sum, t) ∧
      sum.getD (-1) = if h.dirs.live.card +
        ((paths.map Prod.fst).map (nesting fs readdir fuel)).foldr max 0 ≤ limit then x else -1 := by
  induction paths generalizing k h with
  | nil =>
    cases hret
    exact ⟨some x, h, rfl, (if_pos hcard).symm⟩
  | cons p paths ih =>
    obtain ⟨q, string⟩ := p
    obtain ⟨hstring, hrest⟩ := List.forall_mem_cons.mp hstrings
    rw [List.map_cons, sumSubdirs] at hret
    rw [sumSubdirsHeld, access_of_mem hsub, access_of_mem hstring, List.map_cons, List.map_cons,
      List.foldr_cons]
    cases hcall : (countFiles fs readdir fuel q).ret with
    | error why =>
      simp only [hcall] at hret
      cases hret
    | ok y =>
      obtain ⟨t, ht⟩ := hcount q y hcall h
      have hsound := countFilesHeld_sound fs readdir limit fuel q h
      rw [ht] at hsound
      simp only [hcall] at hret
      simp only [ht, Except.bind]
      by_cases hy : y = -1
      · rw [if_pos hy] at hret
        cases hret
        simp only [hy, ite_self, if_true]
        exact ⟨none, t, rfl, rfl⟩
      · rw [if_neg hy] at hret
        by_cases hroom : h.dirs.live.card + nesting fs readdir fuel q ≤ limit
        · simp only [if_pos hroom, if_neg hy] at hsound ⊢
          obtain ⟨hrange, hdirs, hcounted, -⟩ := hsound
          have hareas : t.areas.live = h.areas.live := hcounted hy
          simp only at hrange hdirs
          cases hsigned : signed 64 (k + y) with
          | error why =>
            simp only [hsigned] at hret
            cases hret
          | ok k' =>
            simp only [hsigned] at hret ⊢
            have hk' : 0 ≤ k' := by
              rw [signed_ok hsigned]
              exact Int.add_nonneg hk (hrange.resolve_left hy)
            obtain ⟨sum, t', hsum, hgetD⟩ := ih hk' (hareas ▸ hsub) (hareas ▸ hrest)
              (hdirs ▸ hcard) hret
            refine ⟨sum, t', hsum, ?_⟩
            rw [hgetD, hdirs]
            refine if_congr ?_ rfl rfl
            omega
        · have hdeep : ¬h.dirs.live.card + max (nesting fs readdir fuel q)
              (((paths.map Prod.fst).map (nesting fs readdir fuel)).foldr max 0) ≤ limit := by
            omega
          simp only [if_neg hroom, if_neg hdeep, if_true]
          exact ⟨none, t, rfl, rfl⟩

/-- A call that returns without a limit returns the same within the limit, if there is room for the
directories open in its nested calls, and -1 otherwise. -/
theorem countFilesHeld_limit {x : Int} (hret : (countFiles fs readdir fuel path).ret = .ok x)
    (limit : Nat) (h : Held) : ∃ t, countFilesHeld fs readdir limit fuel path h =
      .ok (if h.dirs.live.card + nesting fs readdir fuel path ≤ limit then x else -1, t) := by
  induction fuel generalizing path x h with
  | zero => cases hret
  | succ fuel ih =>
    rw [countFiles] at hret
    rw [countFilesHeld]
    cases hopendir : fs.opendir path with
    | none =>
      rw [hopendir] at hret
      cases hret
      exact ⟨h, by simp only [ite_self]⟩
    | some d =>
      simp only [hopendir] at hret ⊢
      cases hread : readEntries fs (strip path) (readdir d) with
      | error why =>
        rw [hread] at hret
        cases hret
      | ok r =>
        obtain ⟨k, subdir⟩ := r
        rw [nesting_of_read hopendir hread]
        simp only [hread] at hret
        split
        · next hlimit => exact ⟨h, by rw [if_neg (by omega)]⟩
        · next hlimit =>
          have hspec := readEntries_held fs (strip path) h.dirs h.areas (readdir d)
          rw [hread] at hspec
          obtain ⟨s, hs, hx, O⟩ := hspec
          obtain ⟨rfl, rfl⟩ := Prod.mk.inj hx
          have hnames : (s.subdir.names.zip s.strings).map Prod.fst = s.subdir.names :=
            List.map_fst_zip (Nat.le_of_eq O.length.symm)
          have hcard : h.dirs.acquire.live.card = h.dirs.live.card + 1 := Multiset.card_cons _ _
          have hk : 0 ≤ s.fileCount := readEntries_nonneg (Int.le_refl 0) hread
          rw [← hnames] at hret
          obtain ⟨sum, t, hsum, hgetD⟩ := sumSubdirsHeld_limit (h := ⟨h.dirs.acquire, s.areas⟩) hk
            O.mem_area O.mem_strings (hcard ▸ Nat.not_le.mp hlimit) (fun q y hq => ih hq) hret
          have hsound := sumSubdirsHeld_spec (countFilesHeld_sound fs readdir limit fuel) hk
            (h := ⟨h.dirs.acquire, s.areas⟩) O.mem_area O.mem_strings
          rw [hsum] at hsound
          obtain ⟨t', hleave, -⟩ := leave_spec O hsound
          refine ⟨t', ?_⟩
          simp only [hs, Except.bind, hsum, hleave, hgetD, hnames, hcard, Nat.add_assoc]

/-! ## The nesting of a tree -/

/-- The directories at and below a node are less than so many levels deep. -/
def Shallow (n : Node) (k : Nat) : Prop := ∀ p ∈ n.places, p.2.isDirectory → p.1.length < k

variable {n : Node} {es : List (Name × Node)} {r search : Bool} {k : Nat}

theorem shallow_of_file (h : n.isDirectory = false) : Shallow n k := by
  intro p hp hdir
  cases n with
  | directory => cases h
  | regular | symlink | other =>
    rw [List.mem_singleton.mp hp] at hdir
    cases hdir

theorem shallow_iff : Shallow (.directory r search es) (k + 1) ↔
    ∀ e ∈ es, e.2.isDirectory → Shallow e.2 k := by
  have hplaces : (Node.directory r search es).places =
      ([], .directory r search es) :: Node.placesIn es := Node.places_eq
  refine ⟨fun h e he _ q hq hdir => ?_, fun h p hp hdir => ?_⟩
  · have hmem : (e.1 :: q.1, q.2) ∈ (Node.directory r search es).places := by
      rw [hplaces]
      exact .tail _ (Node.mem_placesIn.mpr ⟨e, he, q, hq, rfl⟩)
    exact Nat.lt_of_succ_lt_succ (h _ hmem hdir)
  · rw [hplaces] at hp
    rcases List.mem_cons.mp hp with rfl | hp
    · exact Nat.succ_pos k
    · obtain ⟨e, he, q, hq, rfl⟩ := Node.mem_placesIn.mp hp
      apply Nat.succ_lt_succ
      cases he' : e.2.isDirectory with
      | true => exact h e he he' q hq hdir
      | false => exact shallow_of_file he' q hq hdir

theorem not_shallow_zero : ¬Shallow (.directory r search es) 0 := by
  intro h
  have hself : ([], .directory r search es) ∈ (Node.directory r search es).places := by
    rw [Node.places_eq]
    exact .head _
  exact Nat.not_lt_zero _ (h _ hself rfl)

theorem counted_of_open (h : ∀ e ∈ es, AllOpen e.2) : counted es = es := by
  induction es with
  | nil => rfl
  | cons e es ih =>
    obtain ⟨hopen, hes⟩ := List.forall_mem_cons.mp h
    rw [counted, if_pos hopen, ih hes]

/-- A call that counts a tree is nested as deep as the tree. -/
theorem Visits.nesting_le_iff {x : Int} (h : Visits fs path d n) (hlists : fs.Lists readdir)
    (hdir : n.isDirectory) (hopen : AllOpen n)
    (hret : (countFiles fs readdir fuel path).ret = .ok x) :
    nesting fs readdir fuel path ≤ k ↔ Shallow n k := by
  induction fuel generalizing path d n k x with
  | zero => cases hret
  | succ fuel ih =>
    cases n with
    | regular | symlink | other => cases hdir
    | directory readable search es =>
      have hreadable : readable = true := (allOpen_iff.mp hopen).1
      subst hreadable
      have hdirs := (allOpen_listed hlists h.get).mp hopen
      rw [countFiles, h.opendir] at hret
      cases hread : readEntries fs (strip path) (readdir d) with
      | error why =>
        simp only [hread] at hret
        cases hret
      | ok t =>
        obtain ⟨hcount, hlen⟩ := h.of_readEntries hlists hread
        obtain ⟨init, hok⟩ := h.readEntries_ok hlists hcount hlen
        cases hread.symm.trans hok
        simp only [hread] at hret
        rw [nesting_of_read h.opendir hread]
        cases k with
        | zero => exact iff_of_false (by omega) not_shallow_zero
        | succ k =>
          have hchild (e : Name × Node) (he : e ∈ dirs (listed fs readdir d)) :
              e ∈ es ∧ e.2.isDirectory := by
            have hmem := List.mem_filter.mp he
            exact ⟨(listed_perm hlists h.get).mem_iff.mp hmem.1, hmem.2⟩
          have htally (e : Name × Node) (he : e ∈ dirs (listed fs readdir d)) (y : Int)
              (hy : (countFiles fs readdir fuel (callPath (strip path) e)).ret = .ok y) :
              y = tally e.2 :=
            ((h.child (hchild e he).1 (hchild e he).2).of_countFiles hlists (hchild e he).2 hy).1
          obtain ⟨-, hrets⟩ := of_sumSubdirs hcount htally hret
          rw [counted_of_open hdirs] at hrets
          rw [Nat.add_comm, Nat.add_le_add_iff_right, foldr_max_le_iff, List.map_map,
            List.forall_mem_map, shallow_iff]
          -- Every call of the loop returns a count, so the induction hypothesis is about each.
          have hsub (e : Name × Node) (he : e ∈ dirs (listed fs readdir d)) :
              nesting fs readdir fuel (callPath (strip path) e) ≤ k ↔ Shallow e.2 k :=
            ih (h.child (hchild e he).1 (hchild e he).2) (hchild e he).2 (hdirs e he) (hrets e he)
          refine ⟨fun hle e he hedir => ?_, fun hshallow e he => ?_⟩
          · have hmem : e ∈ dirs (listed fs readdir d) :=
              List.mem_filter.mpr ⟨(listed_perm hlists h.get).mem_iff.mpr he, hedir⟩
            exact (hsub e hmem).mp (hle e hmem)
          · exact (hsub e he).mpr (hshallow e (hchild e he).1 (hchild e he).2)

/-! ## The count within a limit -/

theorem shallow_iff_get (h : n.WF) :
    Shallow n k ↔ ∀ l m, n.get l = some m → m.isDirectory → l.length < k := by
  rw [Shallow, Prod.forall]
  exact forall₂_congr fun l m => imp_congr_left (Node.mem_places_iff h)

/-- Where the count without a limit is `x`, the one within a limit is `x` if there is room for as
many directories as the tree is deep, and -1 if there is not. -/
theorem countFiles_limit {x : Int} (hlists : fs.Lists readdir) (hfound : EntriesFound fs path)
    (hopendir : fs.opendir path = some d) (hget : fs.root.get d = some n)
    (hret : (countFiles fs readdir fuel path).ret = .ok x) (limit : Nat) (h : Held) :
    ∃ y t, countFilesHeld fs readdir limit fuel path h = .ok (y, t) ∧
      ((∀ l m, n.get l = some m → m.isDirectory → h.dirs.live.card + l.length < limit) → y = x) ∧
      ((∃ l m, n.get l = some m ∧ m.isDirectory ∧ limit ≤ h.dirs.live.card + l.length) →
        y = -1) := by
  obtain ⟨t, ht⟩ := countFilesHeld_limit hret limit h
  refine ⟨_, t, ht, ?_⟩
  obtain rfl | hne := Decidable.em (x = -1)
  · rw [ite_self]
    exact ⟨fun _ => rfl, fun _ => rfl⟩
  · obtain ⟨search, es, hvisits⟩ := hfound.visits hopendir
    cases hget.symm.trans hvisits.get
    have hopen : AllOpen (.directory true search es) := by
      have htally := (hvisits.of_countFiles hlists rfl hret).1
      rw [tally] at htally
      split at htally
      · assumption
      · exact absurd htally hne
    have hroom : h.dirs.live.card + nesting fs readdir fuel path ≤ limit ↔
        ∀ l m, (Node.directory true search es).get l = some m → m.isDirectory →
          h.dirs.live.card + l.length < limit := by
      obtain hlt | hle := Nat.lt_or_ge limit h.dirs.live.card
      · -- There is no room for the first directory.
        exact iff_of_false (by omega) fun hall => by
          have := hall [] _ rfl rfl
          omega
      · obtain ⟨k, rfl⟩ := Nat.le.dest hle
        simp only [Nat.add_le_add_iff_left, Nat.add_lt_add_iff_left,
          hvisits.nesting_le_iff hlists rfl hopen hret, shallow_iff_get (fs.wf.get hvisits.get)]
    refine ⟨fun hall => if_pos (hroom.mpr hall), ?_⟩
    rintro ⟨l, m, hm, hdir, hdeep⟩
    refine if_neg fun hle => ?_
    exact Nat.not_lt.mpr hdeep (hroom.mp hle l m hm hdir)

theorem countFiles_limit_sample : ∃ y t,
    countFilesHeld sample (inOrder sample) 1 10 [0x61, slash] ⟨.empty, .empty⟩ = .ok (y, t) ∧
      y = -1 := by
  have hret : (countFiles sample (inOrder sample) 10 [0x61, slash]).ret = .ok 2 := by
    decide +kernel
  obtain ⟨y, t, hcall, -, hdeep⟩ := countFiles_limit (lists_inOrder sample) entriesFound_sample
    opendir_sample get_sample hret 1 ⟨.empty, .empty⟩
  exact ⟨y, t, hcall, hdeep ⟨[nameB], _, rfl, rfl, Nat.le_refl 1⟩⟩

end KoScripts.Tools.FileCounter
