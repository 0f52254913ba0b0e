import KoScripts.Lib.Handles
import KoScripts.Tools.FileCounterRecursion

/-! # The memory and the directories of countFiles

`countFiles` once more, with what it takes and gives back: the directories open at a time, of which
the process may have so many, and the areas of memory. A call holds its directory while it makes its
recursive calls. -/

namespace KoScripts.Tools.FileCounter
open Lib Lib.FileTree

/-- What is held by the process: directories that are open, areas of memory. -/
structure Held where
  dirs : Handles
  areas : Handles

/-- Why there is no count, or the use of an area or a directory that has been given back. -/
inductive Fault
  | stop (why : Stop)
  | released
deriving DecidableEq

/-- `closedir` or `free`. -/
def giveBack (h : Handles) (i : Nat) : Except Fault Handles :=
  match h.release i with
  | some h => .ok h
  | none => .error .released

def freeAll (h : Handles) (is : List Nat) : Except Fault Handles :=
  match h.releaseAll is with
  | some h => .ok h
  | none => .error .released

/-- An area is read or written. -/
def access (h : Handles) (i : Nat) : Except Fault Unit :=
  if i ∈ h.live then .ok () else .error .released

/-- The variables of the loop over the entries: `subdir` is the area `area`, with the strings in the
areas `strings`. -/
structure Locals where
  fileCount : Int
  subdir : Subdirs
  area : Nat
  strings : List Nat
  areas : Handles

/-- `subdir` with room for one more string. -/
def Locals.grow (s : Locals) : Except Fault (Nat × Handles) :=
  if s.subdir.subsize ≥ s.subdir.init then
    (giveBack s.areas s.area).map fun areas => (areas.next, areas.acquire)
  else .ok (s.area, s.areas)

/-- A string for the path, and the store of the pointer to it. -/
def Locals.record (s : Locals) (path : Bytes) : Except Fault Locals :=
  s.grow.bind fun (area, areas) =>
    match s.subdir.push path with
    | .error why => .error (.stop why)
    | .ok subdir =>
      (access areas.acquire area).map fun _ => { s with
        subdir, area, strings := s.strings ++ [areas.next], areas := areas.acquire }

/-- One round of the loop over the entries, behind its `snprintf`. -/
def readEntryHeld (fs : FileSystem) (fpath : Bytes) (s : Locals) (name : Bytes) :
    Except Fault Locals :=
  match fs.lstat (fullPath fpath name) with
  | some .regular =>
    match signed 64 (s.fileCount + 1) with
    | .error why => .error (.stop why)
    | .ok fileCount => .ok { s with fileCount }
  | some (.directory ..) =>
    if name ≠ dot ∧ name ≠ dotdot then s.record (fullPath fpath name) else .ok s
  | _ => .ok s

/-- The loop over the entries, with `path` in the area `fpath`: `readdir` reads the directory, once
more at its end, and `snprintf` the area. -/
def readEntriesHeld (fs : FileSystem) (path : Bytes) (dirs : Handles) (dir fpath : Nat) :
    List Bytes → Locals → Except Fault Locals
  | [], s => (access dirs dir).map fun _ => s
  | name :: names, s =>
    (access dirs dir).bind fun _ => (access s.areas fpath).bind fun _ =>
      (readEntryHeld fs path s name).bind (readEntriesHeld fs path dirs dir fpath names)

/-- The loop over the subdirectories; `none` for the way out behind a call that returns -1. -/
def sumSubdirsHeld (count : Bytes → Held → Except Fault (Int × Held)) (subdir : Nat)
    (fileCount : Int) : List (Bytes × Nat) → Held → Except Fault (Option Int × Held)
  | [], h => .ok (some fileCount, h)
  | (path, string) :: paths, h =>
    (access h.areas subdir).bind fun _ => (access h.areas string).bind fun _ =>
      (count path h).bind fun (subDirCount, h) =>
        if subDirCount = -1 then .ok (none, h)
        else
          match signed 64 (fileCount + subDirCount) with
          | .error why => .error (.stop why)
          | .ok fileCount => sumSubdirsHeld count subdir fileCount paths h

/-- The end of a call that has its sum. -/
def finish (s : Locals) (dir fpath : Nat) (h : Held) : Except Fault Held :=
  (giveBack h.areas fpath).bind fun areas =>
    (access areas s.area).bind fun _ =>
      (freeAll areas s.strings).bind fun areas =>
        (giveBack areas s.area).bind fun areas =>
          (giveBack h.dirs dir).map fun dirs => { dirs, areas }

/-- The ways out of a call: behind a call that returned -1, or with its sum. -/
def leave (s : Locals) (dir fpath : Nat) (h : Held) : Option Int → Except Fault (Int × Held)
  | none => (giveBack h.dirs dir).map fun dirs => (-1, { h with dirs })
  | some fileCount => (finish s dir fpath h).map fun h => (fileCount, h)

/-- The variables of a call before its loop, with `fpath` and `subdir` allocated. -/
def Locals.start (areas : Handles) : Locals where
  fileCount := 0
  subdir := { init := 10, names := [] }
  area := areas.acquire.next
  strings := []
  areas := areas.acquire.acquire

/-- `countFiles`, in a process that can have `limit` directories open. -/
def countFilesHeld (fs : FileSystem) (readdir : Loc → List Bytes) (limit : Nat) :
    Nat → Bytes → Held → Except Fault (Int × Held)
  | 0, _, _ => .error (.stop .fuel)
  | fuel + 1, path, h =>
    match fs.opendir path with
    | none => .ok (-1, h)
    | some d =>
      if limit ≤ h.dirs.live.card then .ok (-1, h)
      else
        (readEntriesHeld fs (strip path) h.dirs.acquire h.dirs.next h.areas.next (readdir d)
          (.start h.areas)).bind fun s =>
            (sumSubdirsHeld (countFilesHeld fs readdir limit fuel) s.area s.fileCount
              (s.subdir.names.zip s.strings) ⟨h.dirs.acquire, s.areas⟩).bind fun (sum, t) =>
                leave s h.dirs.next h.areas.next t sum

variable {fs : FileSystem} {readdir : Loc → List Bytes} {path fpath name : Bytes} {d : Loc}
  {limit fuel i f : Nat} {g h : Handles} {s t : Locals} {own : Multiset Nat}

/-! ## Giving back -/

/-- A result that is not the use of what has been given back, and what there is of it otherwise. -/
def Sound {α : Type} (r : Except Fault α) (P : α → Prop) : Prop :=
  match r with
  | .ok a => P a
  | .error e => e ≠ .released

theorem Sound.stop {α : Type} {P : α → Prop} (why : Stop) :
    Sound (.error (.stop why) : Except Fault α) P := Fault.noConfusion

theorem Sound.bind {α β : Type} {r : Except Fault α} {f' : α → Except Fault β} {P : α → Prop}
    {Q : β → Prop} (h : Sound r P) (hf : ∀ a, P a → Sound (f' a) Q) : Sound (r.bind f') Q := by
  cases r with
  | error e => exact h
  | ok a => exact hf a h

theorem Sound.imp {α : Type} {r : Except Fault α} {P Q : α → Prop} (h : Sound r P)
    (hPQ : ∀ a, P a → Q a) : Sound r Q := by
  cases r with
  | error e => exact h
  | ok a => exact hPQ a h

theorem giveBack_of_live (hg : g.live = i ::ₘ own + h.live) :
    ∃ g', giveBack g i = .ok g' ∧ g'.live = own + h.live := by
  obtain ⟨g', hrelease, hg'⟩ := Handles.release_of_live hg
  exact ⟨g', by rw [giveBack, hrelease], hg'⟩

theorem freeAll_of_live {is : List Nat} (hg : g.live = (is : Multiset Nat) + own + h.live) :
    ∃ g', freeAll g is = .ok g' ∧ g'.live = own + h.live := by
  obtain ⟨g', hrelease, hg'⟩ := Handles.releaseAll_of_live hg
  exact ⟨g', by rw [freeAll, hrelease], hg'⟩

theorem access_of_mem (hi : i ∈ g.live) : access g i = .ok () := if_pos hi

/-! ## The loop over the entries -/

/-- Beyond what was held before, the areas of a call are `fpath`, `subdir` and the strings. -/
structure Locals.Owns (s : Locals) (h : Handles) (f : Nat) : Prop where
  live : s.areas.live = f ::ₘ s.area ::ₘ (s.strings : Multiset Nat) + h.live
  length : s.strings.length = s.subdir.names.length

theorem Locals.Owns.mem_fpath (O : s.Owns h f) : f ∈ s.areas.live := by
  rw [O.live, Multiset.cons_add]
  exact Multiset.mem_cons_self _ _

theorem Locals.Owns.mem_area (O : s.Owns h f) : s.area ∈ s.areas.live := by
  rw [O.live, Multiset.cons_add, Multiset.cons_add]
  exact Multiset.mem_cons_of_mem (Multiset.mem_cons_self _ _)

theorem Locals.Owns.mem_strings (O : s.Owns h f) :
    ∀ p ∈ s.subdir.names.zip s.strings, p.2 ∈ s.areas.live := by
  intro p hp
  have hmem : p.2 ∈ s.strings := (List.of_mem_zip (a := p.1) (b := p.2) hp).2
  rw [O.live, Multiset.cons_add, Multiset.cons_add]
  exact Multiset.mem_cons_of_mem (Multiset.mem_cons_of_mem (Multiset.mem_add.mpr (.inl hmem)))

theorem owns_start (h : Handles) : (Locals.start h).Owns h h.next where
  live := by
    change h.acquire.next ::ₘ h.next ::ₘ h.live =
      h.next ::ₘ h.acquire.next ::ₘ (0 : Multiset Nat) + h.live
    rw [Multiset.cons_add, Multiset.cons_add, Multiset.zero_add, Multiset.cons_swap]
  length := rfl

theorem grow_spec (O : s.Owns h f) : ∃ area areas, s.grow = .ok (area, areas) ∧
    areas.live = f ::ₘ area ::ₘ (s.strings : Multiset Nat) + h.live := by
  rw [Locals.grow]
  split
  · have hlive : s.areas.live = s.area ::ₘ (f ::ₘ (s.strings : Multiset Nat)) + h.live := by
      rw [O.live, Multiset.cons_swap]
    obtain ⟨areas, hgive, hareas⟩ := giveBack_of_live hlive
    refine ⟨areas.next, areas.acquire, by rw [hgive]; rfl, ?_⟩
    change areas.next ::ₘ areas.live = _
    rw [hareas, Multiset.cons_add, Multiset.cons_swap, Multiset.cons_add, Multiset.cons_add]
  · exact ⟨s.area, s.areas, rfl, O.live⟩

theorem record_spec (O : s.Owns h f) (path : Bytes) :
    match s.subdir.push path with
    | .error why => s.record path = .error (.stop why)
    | .ok subdir => ∃ t, s.record path = .ok t ∧ t.fileCount = s.fileCount ∧ t.subdir = subdir ∧
        t.Owns h f := by
  obtain ⟨area, areas, hgrow, hareas⟩ := grow_spec O
  rw [Locals.record, hgrow]
  simp only [Except.bind]
  cases hpush : s.subdir.push path with
  | error why => rfl
  | ok subdir =>
    have hmem : area ∈ areas.acquire.live := by
      change area ∈ areas.next ::ₘ areas.live
      rw [hareas]
      simp
    simp only [access_of_mem hmem, Except.map]
    refine ⟨_, rfl, rfl, rfl, ?_, ?_⟩
    · change areas.next ::ₘ areas.live = _
      have hstrings : ((s.strings ++ [areas.next] : List Nat) : Multiset Nat) =
          areas.next ::ₘ s.strings := Multiset.coe_eq_coe.mpr (List.perm_append_singleton _ _)
      rw [hareas, hstrings, ← Multiset.cons_add, Multiset.cons_swap areas.next f,
        Multiset.cons_swap areas.next area]
    · rw [push_names hpush, List.length_append, List.length_append, O.length]
      rfl

/-- The loop body does to the count and the subdirectories what it does without the areas. -/
theorem readEntryHeld_spec (fs : FileSystem) (fpath : Bytes) (O : s.Owns h f) (name : Bytes) :
    match readEntry fs fpath (s.fileCount, s.subdir) name with
    | .error why => readEntryHeld fs fpath s name = .error (.stop why)
    | .ok x => ∃ t, readEntryHeld fs fpath s name = .ok t ∧ (t.fileCount, t.subdir) = x ∧
        t.Owns h f := by
  rw [readEntry, readEntryHeld]
  cases fs.lstat (fullPath fpath name) with
  | none => exact ⟨s, rfl, rfl, O⟩
  | some m =>
    cases m with
    | symlink | other => exact ⟨s, rfl, rfl, O⟩
    | regular =>
      simp only
      cases signed 64 (s.fileCount + 1) with
      | error why => rfl
      | ok fileCount => exact ⟨_, rfl, rfl, O.live, O.length⟩
    | directory r search es =>
      by_cases hname : name ≠ dot ∧ name ≠ dotdot
      · have hrecord := record_spec O (fullPath fpath name)
        simp only [if_pos hname]
        cases hpush : s.subdir.push (fullPath fpath name) with
        | error why =>
          rw [hpush] at hrecord
          exact hrecord
        | ok subdir =>
          rw [hpush] at hrecord
          obtain ⟨t, ht, hcount, hsubdir, O'⟩ := hrecord
          exact ⟨t, ht, Prod.ext hcount hsubdir, O'⟩
      · simp only [if_neg hname]
        exact ⟨s, rfl, rfl, O⟩

theorem readEntriesHeld_spec {dirs : Handles} (hdir : i ∈ dirs.live) (O : s.Owns h f)
    (names : List Bytes) :
    match names.foldlM (readEntry fs fpath) (s.fileCount, s.subdir) with
    | .error why => readEntriesHeld fs fpath dirs i f names s = .error (.stop why)
    | .ok x => ∃ t, readEntriesHeld fs fpath dirs i f names s = .ok t ∧
        (t.fileCount, t.subdir) = x ∧ t.Owns h f := by
  induction names generalizing s with
  | nil => exact ⟨s, by rw [readEntriesHeld, access_of_mem hdir]; rfl, rfl, O⟩
  | cons name names ih =>
    have hstep := readEntryHeld_spec fs fpath O name
    rw [List.foldlM_cons, readEntriesHeld, access_of_mem hdir, access_of_mem O.mem_fpath]
    cases hread : readEntry fs fpath (s.fileCount, s.subdir) name with
    | error why =>
      rw [hread] at hstep
      rw [hstep]
      rfl
    | ok x =>
      rw [hread] at hstep
      obtain ⟨t, ht, rfl, O'⟩ := hstep
      rw [ht]
      exact ih O'

/-- The whole of the loop, from the start of a call. -/
theorem readEntries_held (fs : FileSystem) (fpath : Bytes) (dirs h : Handles)
    (names : List Bytes) :
    match readEntries fs fpath names with
    | .error why =>
      readEntriesHeld fs fpath dirs.acquire dirs.next h.next names (.start h) = .error (.stop why)
    | .ok x => ∃ s,
        readEntriesHeld fs fpath dirs.acquire dirs.next h.next names (.start h) = .ok s ∧
          (s.fileCount, s.subdir) = x ∧ s.Owns h h.next :=
  readEntriesHeld_spec dirs.mem_acquire (owns_start h) names

theorem readEntries_sound (dirs h : Handles) (names : List Bytes) :
    Sound (readEntriesHeld fs fpath dirs.acquire dirs.next h.next names (.start h)) fun s =>
      readEntriesHeld fs fpath dirs.acquire dirs.next h.next names (.start h) = .ok s ∧
        readEntries fs fpath names = .ok (s.fileCount, s.subdir) ∧ s.Owns h h.next := by
  have hspec := readEntries_held fs fpath dirs h names
  cases hread : readEntries fs fpath names with
  | error why =>
    rw [hread] at hspec
    rw [hspec]
    exact .stop why
  | ok x =>
    rw [hread] at hspec
    obtain ⟨s, hs, rfl, O⟩ := hspec
    rw [hs]
    exact ⟨rfl, rfl, O⟩

/-! ## The end of a call -/

/-- At its end a call gives back its areas and its directory. -/
theorem finish_spec {dir : Nat} {held : Held} {dirs areas : Handles}
    (hareas : held.areas.live = f ::ₘ s.area ::ₘ (s.strings : Multiset Nat) + areas.live)
    (hdirs : held.dirs.live = dir ::ₘ dirs.live) :
    ∃ t, finish s dir f held = .ok t ∧ t.areas.live = areas.live ∧ t.dirs.live = dirs.live := by
  obtain ⟨g1, h1, hg1⟩ := giveBack_of_live hareas
  have hmem : s.area ∈ g1.live := by
    rw [hg1, Multiset.cons_add]
    exact Multiset.mem_cons_self _ _
  have hstrings : g1.live = (s.strings : Multiset Nat) + (s.area ::ₘ 0) + areas.live := by
    rw [hg1, Multiset.add_cons, Multiset.add_zero]
  obtain ⟨g2, h2, hg2⟩ := freeAll_of_live hstrings
  obtain ⟨g3, h3, hg3⟩ := giveBack_of_live hg2
  rw [← Multiset.zero_add dirs.live, ← Multiset.cons_add] at hdirs
  obtain ⟨g4, h4, hg4⟩ := giveBack_of_live hdirs
  refine ⟨⟨g4, g3⟩, ?_, hg3.trans (Multiset.zero_add _), hg4.trans (Multiset.zero_add _)⟩
  simp only [finish, h1, Except.bind, access_of_mem hmem, h2, h3, h4, Except.map]

/-! ## The calls -/

/-- The areas that a call for `path` leaves behind when it returns -1: none where its own directory
does not open, and otherwise its `fpath`, `subdir` and strings, beside what the call for one of the
strings leaves behind. -/
inductive Leaked (fs : FileSystem) (readdir : Loc → List Bytes) (limit : Nat) :
    Bytes → Held → Multiset Nat → Prop
  | unopened {path : Bytes} {h : Held} (hnone : fs.opendir path = none ∨ limit ≤ h.dirs.live.card) :
      Leaked fs readdir limit path h 0
  | failed {path q : Bytes} {d : Loc} {h g : Held} {s : Locals} {below : Multiset Nat}
      (hopendir : fs.opendir path = some d) (hroom : h.dirs.live.card < limit)
      (hread : readEntriesHeld fs (strip path) h.dirs.acquire h.dirs.next h.areas.next (readdir d)
        (.start h.areas) = .ok s)
      (hq : q ∈ s.subdir.names) (hdirs : g.dirs.live = h.dirs.acquire.live)
      (hareas : g.areas.live = s.areas.live) (hbelow : Leaked fs readdir limit q g below) :
      Leaked fs readdir limit path h
        (below + h.areas.next ::ₘ s.area ::ₘ (s.strings : Multiset Nat))

/-- What a call has done to what is held when it returns. -/
structure Returned (leaks : Multiset Nat → Prop) (h : Held) (x : Int) (t : Held) : Prop where
  range : x = -1 ∨ 0 ≤ x
  dirs : t.dirs.live = h.dirs.live
  counted : x ≠ -1 → t.areas.live = h.areas.live
  failed : x = -1 → ∃ leaked, leaks leaked ∧ t.areas.live = leaked + h.areas.live

theorem signed_ok {bits : Nat} {x y : Int} (h : signed bits x = .ok y) : y = x := by
  rw [signed] at h
  split at h
  · exact (Except.ok.inj h).symm
  · cases h

theorem readEntry_nonneg {x y : Int × Subdirs} (hx : 0 ≤ x.1)
    (h : readEntry fs fpath x name = .ok y) : 0 ≤ y.1 := by
  rw [readEntry] at h
  split at h
  · obtain ⟨k, hk, rfl⟩ := of_map_ok h
    rw [signed_ok hk]
    exact Int.le_add_one hx
  · split at h
    · obtain ⟨subdir, -, rfl⟩ := of_map_ok h
      exact hx
    · cases h
      exact hx
  · cases h
    exact hx

theorem readEntries_nonneg {names : List Bytes} {x y : Int × Subdirs} (hx : 0 ≤ x.1)
    (h : names.foldlM (readEntry fs fpath) x = .ok y) : 0 ≤ y.1 := by
  induction names generalizing x with
  | nil =>
    cases h
    exact hx
  | cons name names ih =>
    rw [List.foldlM_cons] at h
    obtain ⟨z, hz, h⟩ := of_bind_ok h
    exact ih (readEntry_nonneg hx hz) h

/-- The way out of the loop over the subdirectories leaves what is held, or more. -/
structure Summed (leaks : Bytes → Held → Multiset Nat → Prop) (paths : List (Bytes × Nat))
    (h : Held) (sum : Option Int) (t : Held) : Prop where
  dirs : t.dirs.live = h.dirs.live
  counted : ∀ y, sum = some y → 0 ≤ y ∧ t.areas.live = h.areas.live
  failed : sum = none → ∃ p ∈ paths, ∃ g leaked, g.dirs.live = h.dirs.live ∧
    g.areas.live = h.areas.live ∧ leaks p.1 g leaked ∧ t.areas.live = leaked + h.areas.live

theorem sumSubdirsHeld_spec {count : Bytes → Held → Except Fault (Int × Held)}
    {leaks : Bytes → Held → Multiset Nat → Prop}
    (hcount : ∀ path h, Sound (count path h) fun r => Returned (leaks path h) h r.1 r.2) {k : Int}
    (hk : 0 ≤ k) {paths : List (Bytes × Nat)} {h : Held} (hsub : i ∈ h.areas.live)
    (hstrings : ∀ p ∈ paths, p.2 ∈ h.areas.live) :
    Sound (sumSubdirsHeld count i k paths h) fun r => Summed leaks paths h r.1 r.2 := by
  induction paths generalizing k h with
  | nil =>
    refine ⟨rfl, fun y hy => ?_, fun hnone => absurd hnone (Option.some_ne_none k)⟩
    cases hy
    exact ⟨hk, rfl⟩
  | cons p paths ih =>
    obtain ⟨path, string⟩ := p
    obtain ⟨hstring, hrest⟩ := List.forall_mem_cons.mp hstrings
    rw [sumSubdirsHeld, access_of_mem hsub, access_of_mem hstring]
    refine (hcount path h).bind ?_
    rintro ⟨x, t⟩ ⟨hrange, hdirs, hcounted, hfailed⟩
    simp only at hrange hdirs hcounted hfailed ⊢
    split
    · next heq =>
      obtain ⟨leaked, hleaked, hareas⟩ := hfailed heq
      refine ⟨hdirs, fun y hy => absurd hy.symm (Option.some_ne_none y), fun _ => ?_⟩
      exact ⟨_, .head _, h, leaked, rfl, rfl, hleaked, hareas⟩
    · next hne =>
      have hareas := hcounted hne
      cases hsigned : signed 64 (k + x) with
      | error why => exact .stop why
      | ok k' =>
        have hk' : 0 ≤ k' := by
          rw [signed_ok hsigned]
          exact Int.add_nonneg hk (hrange.resolve_left hne)
        have hrec := ih hk' (h := t) (hareas ▸ hsub) (hareas ▸ hrest)
        refine hrec.imp fun r hr => ⟨hr.dirs.trans hdirs, ?_, fun hsum => ?_⟩
        · rw [← hareas]
          exact hr.counted
        · rw [← hareas, ← hdirs]
          obtain ⟨p, hp, hleaks⟩ := hr.failed hsum
          exact ⟨p, .tail _ hp, hleaks⟩

/-- A call that leaves gives back its directory, and with a sum its areas. -/
theorem leave_spec {h t : Held} {sum : Option Int} {leaks : Bytes → Held → Multiset Nat → Prop}
    {paths : List (Bytes × Nat)} (O : s.Owns h.areas h.areas.next)
    (H : Summed leaks paths ⟨h.dirs.acquire, s.areas⟩ sum t) :
    ∃ t', leave s h.dirs.next h.areas.next t sum = .ok (sum.getD (-1), t') ∧
      t'.dirs.live = h.dirs.live ∧ (sum ≠ none → t'.areas.live = h.areas.live) ∧
        (sum = none → t'.areas = t.areas) := by
  have hdir : t.dirs.live = h.dirs.next ::ₘ 0 + h.dirs.live := by
    rw [Multiset.cons_add, Multiset.zero_add]
    exact H.dirs
  cases sum with
  | none =>
    obtain ⟨dirs, hgive, hdirs'⟩ := giveBack_of_live hdir
    exact ⟨{ t with dirs }, by rw [leave, hgive]; rfl, hdirs'.trans (Multiset.zero_add _),
      fun hne => absurd rfl hne, fun _ => rfl⟩
  | some y =>
    have hareas : t.areas.live = _ := (H.counted y rfl).2.trans O.live
    obtain ⟨t', hfinish, hareas', hdirs'⟩ := finish_spec hareas H.dirs
    exact ⟨t', by rw [leave, hfinish]; rfl, hdirs', fun _ => hareas', fun hnone =>
      absurd hnone (Option.some_ne_none y)⟩

theorem returned_unopened {h : Held} (hnone : fs.opendir path = none ∨ limit ≤ h.dirs.live.card) :
    Returned (Leaked fs readdir limit path h) h (-1) h :=
  ⟨.inl rfl, rfl, fun _ => rfl, fun _ => ⟨0, .unopened hnone, (Multiset.zero_add _).symm⟩⟩

theorem countFilesHeld_sound (fs : FileSystem) (readdir : Loc → List Bytes) (limit fuel : Nat)
    (path : Bytes) (h : Held) :
    Sound (countFilesHeld fs readdir limit fuel path h) fun r =>
      Returned (Leaked fs readdir limit path h) h r.1 r.2 := by
  induction fuel generalizing path h with
  | zero => exact .stop .fuel
  | succ fuel ih =>
    rw [countFilesHeld]
    cases hopendir : fs.opendir path with
    | none => exact returned_unopened (.inl hopendir)
    | some d =>
      simp only
      split
      · next hlimit => exact returned_unopened (.inr hlimit)
      · next hlimit =>
        refine (readEntries_sound h.dirs h.areas (readdir d)).bind fun s hs => ?_
        obtain ⟨hheld, hread, O⟩ := hs
        refine (sumSubdirsHeld_spec ih (readEntries_nonneg (Int.le_refl 0) hread)
          (h := ⟨h.dirs.acquire, s.areas⟩) O.mem_area O.mem_strings).bind ?_
        rintro ⟨sum, t⟩ H
        obtain ⟨t', hleave, hdirs, hcounted, hfailed⟩ := leave_spec O H
        rw [hleave]
        cases sum with
        | some y =>
          have hy : 0 ≤ y := (H.counted y rfl).1
          refine ⟨.inr hy, hdirs, fun _ => hcounted (Option.some_ne_none y), fun hneg => ?_⟩
          have hneg : y = -1 := hneg
          omega
        | none =>
          refine ⟨.inl rfl, hdirs, fun hne => absurd rfl hne, fun _ => ?_⟩
          obtain ⟨p, hp, g, below, hgdirs, hgareas, hbelow, hareas⟩ := H.failed rfl
          have hq : p.1 ∈ s.subdir.names := (List.of_mem_zip (a := p.1) (b := p.2) hp).1
          refine ⟨_, .failed hopendir (Nat.not_le.mp hlimit) hheld hq hgdirs hgareas hbelow, ?_⟩
          have hlive : t.areas.live = below + s.areas.live := hareas
          rw [hfailed rfl, hlive, O.live, Multiset.add_assoc]

/-- A call that returns -1 leaves nothing behind if and only if its own directory does not open. -/
theorem leaked_zero_iff {h : Held} {leaked : Multiset Nat}
    (H : Leaked fs readdir limit path h leaked) :
    leaked = 0 ↔ fs.opendir path = none ∨ limit ≤ h.dirs.live.card := by
  cases H with
  | unopened hnone => exact iff_of_true rfl hnone
  | failed hopendir hroom =>
    refine iff_of_false ?_ ?_
    · rw [Multiset.add_cons]
      exact Multiset.cons_ne_zero
    · rw [hopendir]
      exact fun hc => hc.elim (Option.some_ne_none _) (Nat.not_le.mpr hroom)

/-- Whatever the tree, the order of the entries, and the number of directories that can be open at a
time, no call uses or gives back what it has not, or no more, and when it returns, every directory
that it opened has been closed. A call that returns a count has freed all its memory; one that
returns -1 has if and only if it could not open its own directory, and otherwise leaves behind its
`fpath`, `subdir` and strings, and those of the calls below, down to the one that could not open its
directory. -/
theorem countFiles_gives_back (fs : FileSystem) (readdir : Loc → List Bytes) (limit fuel : Nat)
    (path : Bytes) (h : Held) :
    countFilesHeld fs readdir limit fuel path h ≠ .error .released ∧
      ∀ x t, countFilesHeld fs readdir limit fuel path h = .ok (x, t) →
        t.dirs.live = h.dirs.live ∧ h.areas.live ≤ t.areas.live ∧
          (t.areas.live = h.areas.live ↔
            x ≠ -1 ∨ fs.opendir path = none ∨ limit ≤ h.dirs.live.card) ∧
          (x = -1 → ∃ leaked, Leaked fs readdir limit path h leaked ∧
            t.areas.live = leaked + h.areas.live) := by
  have hsound := countFilesHeld_sound fs readdir limit fuel path h
  refine ⟨fun hx => ?_, fun x t hx => ?_⟩
  · rw [hx] at hsound
    exact hsound rfl
  · rw [hx] at hsound
    obtain ⟨-, hdirs, hcounted, hfailed⟩ := hsound
    simp only at hdirs hcounted hfailed
    by_cases hneg : x = -1
    · obtain ⟨leaked, hleaked, hareas⟩ := hfailed hneg
      have hsame : leaked + h.areas.live = h.areas.live ↔ leaked = 0 := by
        rw [← Multiset.zero_add h.areas.live, ← Multiset.add_assoc, Multiset.add_zero]
        exact Multiset.add_left_inj
      refine ⟨hdirs, by rw [hareas]; exact Multiset.le_add_left _ _, ?_, fun _ =>
        ⟨leaked, hleaked, hareas⟩⟩
      rw [hareas, hsame, leaked_zero_iff hleaked]
      exact (or_iff_right (not_not_intro hneg)).symm
    · have hareas := hcounted hneg
      exact ⟨hdirs, hareas.ge, iff_of_true hareas (.inl hneg), fun hc =>
        absurd hc hneg⟩

end KoScripts.Tools.FileCounter
