import KoScripts.Tools.FileCounterCount

/-! # Where the recursion goes

What `snprintf` cuts off is not noticed: the path recorded for a subdirectory may be that of another
entry, or of the directory itself. The calls go down the tree as long as what is left of the names
still tells the entries apart. -/

namespace KoScripts.Tools.FileCounter
open Lib.FileTree

/-- What of a slash and the name fits behind the path. -/
def cut (fpath name : Bytes) : Bytes := (slash :: name).take (pathMax - 1 - fpath.length)

/-- `readEntry` records a subdirectory. -/
def records (fs : FileSystem) (fpath name : Bytes) : Bool :=
  (fs.lstat (fullPath fpath name)).any Node.isDirectory && (name != dot && name != dotdot)

/-- The names recorded by a call that lists a directory. -/
def recorded (fs : FileSystem) (readdir : Loc → List Bytes) (path : Bytes) (d : Loc) :
    List Bytes :=
  (readdir d).filter (records fs (strip path))

/-- The paths of the recursive calls name directories below the one listed, each another one. -/
structure Descends (fs : FileSystem) (readdir : Loc → List Bytes) (path : Bytes) (d : Loc) :
    Prop where
  below : ∀ name ∈ recorded fs readdir path d, ∃ l ≠ [],
    fs.lookup true (fullPath (strip path) name) = some (d ++ l)
  nodup : ((recorded fs readdir path d).map fun name =>
    fs.lookup true (fullPath (strip path) name)).Nodup

/-- What fits of the names recorded is the name of an entry, and of another one each. -/
structure CutsApart (fs : FileSystem) (readdir : Loc → List Bytes) (path : Bytes) (d : Loc) :
    Prop where
  named : ∀ name ∈ recorded fs readdir path d,
    cut (strip path) name ∉ [[], [slash], slash :: dot, slash :: dotdot]
  nodup : ((recorded fs readdir path d).map (cut (strip path))).Nodup

variable {fs : FileSystem} {readdir : Loc → List Bytes} {path fpath name : Bytes} {d l : Loc}
  {m n : Node} {es : List (Name × Node)} {e : Name × Node} {r search : Bool}

/-! ## One call -/

theorem records_iff : records fs fpath name ↔
    (∃ m, fs.lstat (fullPath fpath name) = some m ∧ m.isDirectory) ∧
      name ≠ dot ∧ name ≠ dotdot := by
  rw [records, Bool.and_eq_true, Bool.and_eq_true, bne_iff_ne, bne_iff_ne, Option.any_eq_true]

/-- What a recorded name leads to. -/
theorem lookup_recorded (hlists : fs.Lists readdir) (hopendir : fs.opendir path = some d)
    (hname : name ∈ recorded fs readdir path d) :
    (cut (strip path) name = [] ∧ fs.lookup true (fullPath (strip path) name) = some d) ∨
      ∃ c l, cut (strip path) name = slash :: c ∧ fs.next d c = some (.enter l) ∧
        fs.lookup true (fullPath (strip path) name) = some l := by
  obtain ⟨hmem, hrecords⟩ := List.mem_filter.mp hname
  obtain ⟨⟨m, hstat, hdir⟩, hdot, hdotdot⟩ := records_iff.mp hrecords
  obtain ⟨hlookup, search, es, hget⟩ := FileSystem.opendir_some hopendir
  obtain ⟨hle, hpath⟩ := length_strip_le hlookup
  rw [fullPath_cut hle] at hstat ⊢
  rw [cut]
  cases hroom : pathMax - 1 - (strip path).length with
  | zero =>
    rw [List.take_zero, List.append_nil, hpath (by omega)]
    exact .inl ⟨rfl, hlookup⟩
  | succ k =>
    have hslash : slash ∉ name.take k := by
      intro hslash
      obtain ⟨dots, hperm, hdots⟩ := hlists d _ _ es hget
      obtain hentry | hname := List.mem_append.mp (hperm.mem_iff.mp hmem)
      · obtain ⟨e, -, rfl⟩ := List.mem_map.mp hentry
        exact e.1.no_slash (List.mem_of_mem_take hslash)
      · exact (hdots name hname).elim hdot hdotdot
    have hlt : (strip path ++ slash :: name.take k).length < pathMax := by
      rw [List.length_append, List.length_cons]
      have := List.length_take_le k name
      omega
    rw [hroom, List.take_succ_cons] at hstat
    obtain ⟨l, hnext, -⟩ | ⟨target, heq⟩ := (names_strip hlookup).lstat_some hslash hlt hstat
    · exact .inr ⟨name.take k, l, rfl, hnext, (names_strip hlookup).lookup_enter hslash hlt hnext⟩
    · rw [heq] at hdir
      cases hdir

/-- A name of which enough fits leads to an entry. -/
theorem entry_of_recorded (hlists : fs.Lists readdir) (hopendir : fs.opendir path = some d)
    (hget : fs.root.get d = some n) (hname : name ∈ recorded fs readdir path d)
    (hcut : cut (strip path) name ∉ [[], [slash], slash :: dot, slash :: dotdot]) :
    ∃ e ∈ n.entries, cut (strip path) name = slash :: e.1.bytes ∧
      fs.lookup true (fullPath (strip path) name) = some (d ++ [e.1]) := by
  obtain ⟨hnil, -⟩ | ⟨c, l, hc, hnext, hlookup⟩ := lookup_recorded hlists hopendir hname
  · rw [hnil] at hcut
    exact absurd (.head _) hcut
  · rw [hc] at hcut
    obtain ⟨rfl | rfl, -⟩ | ⟨rfl, -⟩ | ⟨r, es, e, hd, he, rfl⟩ := FileSystem.next_enter hnext
    · exact absurd (.tail _ (.head _)) hcut
    · exact absurd (.tail _ (.tail _ (.head _))) hcut
    · exact absurd (.tail _ (.tail _ (.tail _ (.head _)))) hcut
    · cases hget.symm.trans hd
      obtain ⟨hmem, rfl⟩ := Node.mem_of_entry he
      exact ⟨e, hmem, hc, hlookup⟩

/-- No other name leads below the directory. -/
theorem cut_of_below (hlists : fs.Lists readdir) (hopendir : fs.opendir path = some d)
    (hname : name ∈ recorded fs readdir path d) (hne : l ≠ [])
    (hlookup : fs.lookup true (fullPath (strip path) name) = some (d ++ l)) :
    cut (strip path) name ∉ [[], [slash], slash :: dot, slash :: dotdot] := by
  intro hcut
  obtain ⟨-, hd⟩ | ⟨c, l', hc, hnext, hl'⟩ := lookup_recorded hlists hopendir hname
  · exact hne (List.append_right_eq_self.mp (Option.some.inj (hlookup.symm.trans hd)))
  · have hdots : c = [] ∨ c = dot ∨ c = dotdot := by
      rw [hc] at hcut
      simpa only [List.mem_cons, List.not_mem_nil, or_false, reduceCtorEq, false_or,
        List.cons.injEq, true_and] using hcut
    have heq := Option.some.inj (hlookup.symm.trans hl')
    obtain rfl | rfl := FileSystem.next_dots hdots hnext
    · exact hne (List.append_right_eq_self.mp heq)
    · -- The directory above is no longer than this one.
      have hlen := congrArg List.length heq
      rw [List.length_append, List.length_dropLast] at hlen
      exact hne (List.length_eq_zero_iff.mp (by omega))

/-- Paths that lead to different directories have different ends. -/
theorem Descends.cutsApart (h : Descends fs readdir path d) (hlists : fs.Lists readdir)
    (hopendir : fs.opendir path = some d) : CutsApart fs readdir path d := by
  refine ⟨fun name hname => ?_, ?_⟩
  · obtain ⟨l, hne, hl⟩ := h.below name hname
    exact cut_of_below hlists hopendir hname hne hl
  · have hlookup := (FileSystem.opendir_some hopendir).1
    have hfull : (recorded fs readdir path d).map (fun name =>
        fs.lookup true (fullPath (strip path) name)) =
        ((recorded fs readdir path d).map (cut (strip path))).map fun c =>
          fs.lookup true (strip path ++ c) := by
      rw [List.map_map]
      exact List.map_congr_left fun name _ => by
        rw [fullPath_cut (length_strip_le hlookup).1, Function.comp_apply, cut]
    have hnodup := h.nodup
    rw [hfull] at hnodup
    exact hnodup.of_map _

/-- Ends that tell the entries apart lead to different entries. -/
theorem CutsApart.descends (h : CutsApart fs readdir path d) (hlists : fs.Lists readdir)
    (hopendir : fs.opendir path = some d) : Descends fs readdir path d := by
  obtain ⟨-, search, es, hget⟩ := FileSystem.opendir_some hopendir
  have hentry (name : Bytes) (hname : name ∈ recorded fs readdir path d) :=
    entry_of_recorded hlists hopendir hget hname (h.named name hname)
  refine ⟨fun name hname => ?_, ?_⟩
  · obtain ⟨e, -, -, hl⟩ := hentry name hname
    exact ⟨[e.1], nofun, hl⟩
  · have hpairs := List.pairwise_map.mp h.nodup
    refine List.pairwise_map.mpr (hpairs.imp_of_mem fun {name name'} hname hname' hne heq => ?_)
    obtain ⟨e, -, hcut, hl⟩ := hentry name hname
    obtain ⟨e', -, hcut', hl'⟩ := hentry name' hname'
    rw [hl, hl'] at heq
    have hcons := List.append_cancel_left (Option.some.inj heq)
    exact hne (by rw [hcut, hcut', (List.cons.inj hcons).1])

theorem descends_iff (hlists : fs.Lists readdir) (hopendir : fs.opendir path = some d) :
    Descends fs readdir path d ↔ CutsApart fs readdir path d :=
  ⟨fun h => h.cutsApart hlists hopendir, fun h => h.descends hlists hopendir⟩

/-! ## The calls made -/

section
variable {α β : Type} {x : Except Stop α} {f : α → Except Stop β} {g : α → β} {stop : Stop}

theorem of_bind_ok {b : β} (h : x.bind f = .ok b) : ∃ a, x = .ok a ∧ f a = .ok b := by
  cases x with
  | error => cases h
  | ok a => exact ⟨a, rfl, h⟩

theorem of_map_ok {b : β} (h : x.map g = .ok b) : ∃ a, x = .ok a ∧ g a = b := by
  cases x with
  | error => cases h
  | ok a => exact ⟨a, rfl, Except.ok.inj h⟩

theorem bind_ne (hx : x ≠ .error stop) (hf : ∀ a, f a ≠ .error stop) :
    x.bind f ≠ .error stop := by
  cases x with
  | error e => exact fun h => hx (congrArg Except.error (Except.error.inj h))
  | ok a => exact hf a

theorem map_ne (hx : x ≠ .error stop) : x.map g ≠ .error stop := by
  cases x with
  | error e => exact fun h => hx (congrArg Except.error (Except.error.inj h))
  | ok a => exact nofun

end

theorem signed_ne_fuel {bits : Nat} {x : Int} : signed bits x ≠ .error .fuel := by
  rw [signed]
  split <;> exact nofun

theorem push_ne_fuel {s : Subdirs} : s.push path ≠ .error .fuel := by
  refine bind_ne ?_ fun init => ?_
  · split
    · exact signed_ne_fuel
    · exact nofun
  · split <;> exact nofun

theorem push_names {s t : Subdirs} (h : s.push path = .ok t) : t.names = s.names ++ [path] := by
  obtain ⟨init, -, h⟩ := of_bind_ok h
  split at h
  · cases h
    rfl
  · cases h

theorem readEntry_ne_fuel {s : Int × Subdirs} : readEntry fs fpath s name ≠ .error .fuel := by
  rw [readEntry]
  split
  · exact map_ne signed_ne_fuel
  · split
    · exact map_ne push_ne_fuel
    · intro h
      cases h
  · intro h
    cases h

theorem readEntry_names {s t : Int × Subdirs} (h : readEntry fs fpath s name = .ok t) :
    t.2.names = s.2.names ++ ([name].filter (records fs fpath)).map (fullPath fpath) := by
  have hnot (ht : t.2 = s.2) (hrec : ¬records fs fpath name) :
      t.2.names = s.2.names ++ ([name].filter (records fs fpath)).map (fullPath fpath) := by
    rw [List.filter_cons_of_neg hrec, List.filter_nil, List.map_nil, List.append_nil, ht]
  rw [readEntry] at h
  split at h
  case h_1 hstat =>
    obtain ⟨x, -, rfl⟩ := of_map_ok h
    refine hnot rfl fun hrec => ?_
    obtain ⟨⟨m, hm, hdir⟩, -⟩ := records_iff.mp hrec
    cases hstat.symm.trans hm
    cases hdir
  case h_2 hstat =>
    split at h
    case isTrue hne =>
      obtain ⟨u, hpush, rfl⟩ := of_map_ok h
      have hrec : records fs fpath name := records_iff.mpr ⟨⟨_, hstat, rfl⟩, hne⟩
      rw [List.filter_cons_of_pos hrec, List.filter_nil]
      exact push_names hpush
    case isFalse hne =>
      cases h
      exact hnot rfl fun hrec => hne (records_iff.mp hrec).2
  case h_3 hreg hdirs =>
    cases h
    refine hnot rfl fun hrec => ?_
    obtain ⟨⟨m, hm, hdir⟩, -⟩ := records_iff.mp hrec
    cases m with
    | directory r search es => exact hdirs r search es hm
    | regular | symlink | other => cases hdir

theorem foldlM_names {names : List Bytes} {s t : Int × Subdirs}
    (h : names.foldlM (readEntry fs fpath) s = .ok t) :
    t.2.names = s.2.names ++ (names.filter (records fs fpath)).map (fullPath fpath) := by
  induction names generalizing s with
  | nil =>
    cases h
    exact (List.append_nil _).symm
  | cons name names ih =>
    rw [List.foldlM_cons] at h
    obtain ⟨u, hu, h⟩ := of_bind_ok h
    rw [ih h, readEntry_names hu, List.append_assoc, ← List.map_append, ← List.filter_append]
    rfl

theorem foldlM_ne_fuel {names : List Bytes} {s : Int × Subdirs} :
    names.foldlM (readEntry fs fpath) s ≠ .error .fuel := by
  induction names generalizing s with
  | nil => exact nofun
  | cons name names ih =>
    rw [List.foldlM_cons]
    exact bind_ne readEntry_ne_fuel fun _ => ih

/-- The paths called for, if there is an end to the listing. -/
theorem readEntries_names {t : Int × Subdirs}
    (h : readEntries fs (strip path) (readdir d) = .ok t) :
    t.2.names = (recorded fs readdir path d).map (fullPath (strip path)) :=
  foldlM_names h

/-- The calls made by the loop are those for the first paths, up to one that does not return. -/
theorem sumSubdirs_calls (count : Bytes → Answer) (k : Int) (paths : List Bytes) :
    ∃ pre, pre <+: paths ∧
      (sumSubdirs count k paths).calls = pre.flatMap (fun q => (count q).calls) ∧
      ((sumSubdirs count k paths).ret = .error .fuel →
        ∃ q ∈ pre, (count q).ret = .error .fuel) := by
  induction paths generalizing k with
  | nil => exact ⟨[], List.prefix_refl [], rfl, fun h => by cases h⟩
  | cons q paths ih =>
    have hone : [q] <+: q :: paths := List.prefix_append [q] paths
    have hcalls : (count q).calls = [q].flatMap fun q => (count q).calls :=
      (List.append_nil _).symm
    rw [sumSubdirs]
    cases hret : (count q).ret with
    | error stop =>
      exact ⟨[q], hone, hcalls, fun h => ⟨q, .head _, hret.trans h⟩⟩
    | ok x =>
      simp only
      split
      case isTrue => exact ⟨[q], hone, hcalls, fun h => by cases h⟩
      case isFalse =>
        cases hsigned : signed 64 (k + x) with
        | error stop =>
          exact ⟨[q], hone, hcalls, fun h => absurd (hsigned.trans h) signed_ne_fuel⟩
        | ok k =>
          obtain ⟨pre, hpre, heq, hfuel⟩ := ih k
          refine ⟨q :: pre, List.cons_prefix_cons.mpr ⟨rfl, hpre⟩, ?_, fun h => ?_⟩
          · rw [List.flatMap_cons, ← heq]
          · obtain ⟨q', hq', hq'fuel⟩ := hfuel h
            exact ⟨q', .tail q hq', hq'fuel⟩

/-- A call that ends, and that calls for directories at and below one, for none of them twice. -/
structure Runs (fs : FileSystem) (d : Loc) (a : Answer) : Prop where
  ends : a.ret ≠ .error .fuel
  below : ∀ q ∈ a.calls, ∃ l, fs.lookup true q = some (d ++ l)
  nodup : (a.calls.map (fs.lookup true)).Nodup

theorem runs_leaf {ret : Except Stop Int} (hret : ret ≠ .error .fuel)
    (hlookup : fs.lookup true path = some d) : Runs fs d ⟨ret, [path]⟩ := by
  refine ⟨hret, fun q hq => ⟨[], ?_⟩, List.nodup_singleton _⟩
  rw [List.mem_singleton.mp hq, hlookup, List.append_nil]

/-- The calls for several subdirectories are apart from each other and from the call above. -/
theorem runs_node {ret : Except Stop Int} {count : Bytes → Answer} {paths : List Bytes}
    (hret : ret ≠ .error .fuel) (hlookup : fs.lookup true path = some d)
    (hcount : ∀ q ∈ paths, ∃ name, fs.lookup true q = some (d ++ [name]) ∧
      Runs fs (d ++ [name]) (count q))
    (hnodup : (paths.map (fs.lookup true)).Nodup) :
    Runs fs d ⟨ret, path :: paths.flatMap fun q => (count q).calls⟩ := by
  have hbelow (q : Bytes) (hq : q ∈ paths) : ∃ name, fs.lookup true q = some (d ++ [name]) ∧
      ∀ q' ∈ (count q).calls, ∃ l, fs.lookup true q' = some (d ++ name :: l) := by
    obtain ⟨name, hname, hruns⟩ := hcount q hq
    refine ⟨name, hname, fun q' hq' => ?_⟩
    obtain ⟨l, hl⟩ := hruns.below q' hq'
    exact ⟨l, by rw [hl, List.append_assoc, List.singleton_append]⟩
  refine ⟨hret, fun q hq => ?_, ?_⟩
  · obtain rfl | hq := List.mem_cons.mp hq
    · exact ⟨[], by rw [hlookup, List.append_nil]⟩
    · obtain ⟨q', hq', hq⟩ := List.mem_flatMap.mp hq
      obtain ⟨name, -, hl⟩ := hbelow q' hq'
      obtain ⟨l, hl⟩ := hl q hq
      exact ⟨name :: l, hl⟩
  · rw [List.map_cons, List.map_flatMap, List.nodup_cons, List.nodup_flatMap]
    refine ⟨fun hmem => ?_, fun q hq => ?_, ?_⟩
    · obtain ⟨q, hq, hmem⟩ := List.mem_flatMap.mp hmem
      obtain ⟨q', hq', heq⟩ := List.mem_map.mp hmem
      obtain ⟨name, -, hl⟩ := hbelow q hq
      obtain ⟨l, hl⟩ := hl q' hq'
      rw [hl, hlookup] at heq
      exact List.cons_ne_nil name l (List.append_right_eq_self.mp (Option.some.inj heq))
    · obtain ⟨name, -, hruns⟩ := hcount q hq
      exact hruns.nodup
    · refine (List.pairwise_map.mp hnodup).imp_of_mem fun {q q'} hq hq' hne x hx hx' => hne ?_
      obtain ⟨p, hp, rfl⟩ := List.mem_map.mp hx
      obtain ⟨p', hp', heq⟩ := List.mem_map.mp hx'
      obtain ⟨name, hname, hl⟩ := hbelow q hq
      obtain ⟨name', hname', hl'⟩ := hbelow q' hq'
      obtain ⟨l, hl⟩ := hl p hp
      obtain ⟨l', hl'⟩ := hl' p' hp'
      rw [hl, hl'] at heq
      have hcons := List.append_cancel_left (Option.some.inj heq)
      rw [hname, hname', (List.cons.inj hcons).1]

/-- A recorded path leads to a node of the tree below. -/
theorem CutsApart.entry {q : Bytes} (h : CutsApart fs readdir path d) (hlists : fs.Lists readdir)
    (hopendir : fs.opendir path = some d) (hget : fs.root.get d = some n)
    (hq : q ∈ (recorded fs readdir path d).map (fullPath (strip path))) :
    ∃ e ∈ n.entries, fs.lookup true q = some (d ++ [e.1]) ∧
      fs.root.get (d ++ [e.1]) = some e.2 := by
  obtain ⟨name, hname, rfl⟩ := List.mem_map.mp hq
  obtain ⟨e, he, -, hl⟩ := entry_of_recorded hlists hopendir hget hname (h.named name hname)
  have hentry := Node.entry_of_mem (fs.wf.get hget).entries he
  exact ⟨e, he, hl, Node.get_snoc hget hentry⟩

theorem countFiles_runs (hlists : fs.Lists readdir) {fuel : Nat}
    (hlookup : fs.lookup true path = some d) (hget : fs.root.get d = some n)
    (hfuel : sizeOf n ≤ fuel)
    (hcuts : ∀ q ∈ (countFiles fs readdir fuel path).calls, ∀ d', fs.opendir q = some d' →
      CutsApart fs readdir q d') : Runs fs d (countFiles fs readdir fuel path) := by
  induction n using Node.induct generalizing d path fuel with
  | step n ih =>
    cases fuel with
    | zero => exact absurd hfuel (Nat.not_le.mpr n.sizeOf_pos)
    | succ fuel =>
      rw [countFiles] at hcuts ⊢
      cases hopendir : fs.opendir path with
      | none => exact runs_leaf (fun h => by cases h) hlookup
      | some d' =>
        cases hlookup.symm.trans (FileSystem.opendir_some hopendir).1
        rw [hopendir] at hcuts
        simp only at hcuts ⊢
        cases hread : readEntries fs (strip path) (readdir d) with
        | error stop =>
          refine runs_leaf (fun h => ?_) hlookup
          cases h
          exact foldlM_ne_fuel hread
        | ok t =>
          -- The calls are for the first paths recorded, and by induction each goes down.
          obtain ⟨pre, hpre, hcalls, hstop⟩ :=
            sumSubdirs_calls (countFiles fs readdir fuel) t.1 t.2.names
          rw [hread] at hcuts
          simp only [hcalls] at hcuts ⊢
          have hcut := hcuts path (.head _) d hopendir
          rw [readEntries_names hread] at hpre
          have hcall (q : Bytes) (hq : q ∈ pre) : ∃ name, fs.lookup true q = some (d ++ [name]) ∧
              Runs fs (d ++ [name]) (countFiles fs readdir fuel q) := by
            obtain ⟨e, he, hl, hnode⟩ := hcut.entry hlists hopendir hget (hpre.subset hq)
            have hlt := Node.sizeOf_entry he
            refine ⟨e.1, hl, ih e he hl hnode (by omega) fun q' hq' => ?_⟩
            exact hcuts q' (.tail _ (List.mem_flatMap.mpr ⟨_, hq, hq'⟩))
          refine runs_node (fun hfuel => ?_) hlookup hcall ?_
          · obtain ⟨q, hq, hq'⟩ := hstop hfuel
            obtain ⟨name, -, hruns⟩ := hcall q hq
            exact hruns.ends hq'
          · have hnodup := (hcut.descends hlists hopendir).nodup
            rw [← Function.comp_def, ← List.map_map] at hnodup
            exact hnodup.sublist (hpre.sublist.map _)

/-! ## More fuel -/

/-- With more fuel there are no fewer calls, and an answer stays. -/
def Extends (a b : Answer) : Prop := a.calls ⊆ b.calls ∧ (a.ret ≠ .error .fuel → b = a)

theorem Extends.refl (a : Answer) : Extends a a := ⟨List.Subset.refl a.calls, fun _ => rfl⟩

theorem Extends.trans {a b c : Answer} (h : Extends a b) (h' : Extends b c) : Extends a c := by
  refine ⟨List.Subset.trans h.1 h'.1, fun hret => ?_⟩
  have hb := h.2 hret
  rw [h'.2 (hb ▸ hret), hb]

theorem calls_subset {count : Bytes → Answer} {k : Int} {q : Bytes} {paths : List Bytes} :
    (count q).calls ⊆ (sumSubdirs count k (q :: paths)).calls := by
  rw [sumSubdirs]
  cases hret : (count q).ret with
  | error stop => exact List.Subset.refl _
  | ok x =>
    simp only
    split
    · exact List.Subset.refl _
    · cases signed 64 (k + x) with
      | error stop => exact List.Subset.refl _
      | ok k => exact List.subset_append_left _ _

theorem sumSubdirs_extends {count count' : Bytes → Answer}
    (h : ∀ q, Extends (count q) (count' q)) (k : Int) (paths : List Bytes) :
    Extends (sumSubdirs count k paths) (sumSubdirs count' k paths) := by
  induction paths generalizing k with
  | nil => exact .refl _
  | cons q paths ih =>
    obtain ⟨hcalls, hsame⟩ := h q
    obtain hfuel | hret := Decidable.em ((count q).ret = .error .fuel)
    · have hsum : sumSubdirs count k (q :: paths) = ⟨.error .fuel, (count q).calls⟩ := by
        rw [sumSubdirs]
        simp only [hfuel]
      rw [hsum]
      exact ⟨List.Subset.trans hcalls calls_subset, fun hne => absurd rfl hne⟩
    · rw [sumSubdirs, sumSubdirs, hsame hret]
      cases (count q).ret with
      | error stop => exact .refl _
      | ok x =>
        simp only
        split
        · exact .refl _
        · cases signed 64 (k + x) with
          | error stop => exact .refl _
          | ok k =>
            obtain ⟨hsub, hans⟩ := ih k
            refine ⟨fun q' hq' => ?_, fun hne => ?_⟩
            · exact List.mem_append.mpr ((List.mem_append.mp hq').imp_right fun h => hsub h)
            · simp only [hans hne]

theorem countFiles_succ (fs : FileSystem) (readdir : Loc → List Bytes) (fuel : Nat)
    (path : Bytes) : Extends (countFiles fs readdir fuel path)
      (countFiles fs readdir (fuel + 1) path) := by
  induction fuel generalizing path with
  | zero =>
    refine ⟨fun q hq => ?_, fun hne => absurd rfl hne⟩
    rw [List.mem_singleton.mp hq, countFiles]
    cases fs.opendir path with
    | none => exact .head _
    | some d =>
      simp only
      split
      · exact .head _
      · exact .head _
  | succ fuel ih =>
    rw [countFiles, countFiles]
    cases fs.opendir path with
    | none => exact .refl _
    | some d =>
      simp only
      cases readEntries fs (strip path) (readdir d) with
      | error stop => exact .refl _
      | ok t =>
        obtain ⟨hsub, hans⟩ := sumSubdirs_extends ih t.1 t.2.names
        refine ⟨List.cons_subset_cons path hsub, fun hne => ?_⟩
        simp only [hans hne]

theorem countFiles_extends {fuel fuel' : Nat} (h : fuel ≤ fuel') :
    Extends (countFiles fs readdir fuel path) (countFiles fs readdir fuel' path) := by
  induction h with
  | refl => exact .refl _
  | step _ ih => exact ih.trans (countFiles_succ fs readdir _ path)

/-! ## The recursion -/

/-- The recursion ends, with one call at most for a directory, and in every call the paths recorded
for further calls lead below the directory listed. -/
def GoesDown (fs : FileSystem) (readdir : Loc → List Bytes) (path : Bytes) : Prop :=
  ∃ fuel, (countFiles fs readdir fuel path).ret ≠ .error .fuel ∧
    ((countFiles fs readdir fuel path).calls.map (fs.lookup true)).Nodup ∧
    ∀ q ∈ (countFiles fs readdir fuel path).calls, ∀ d, fs.opendir q = some d →
      Descends fs readdir q d

/-- The recursion goes down the tree if and only if what fits of the names tells the entries apart
in every call. -/
theorem countFiles_goesDown_iff (hlists : fs.Lists readdir) (hopendir : fs.opendir path = some d) :
    GoesDown fs readdir path ↔
      ∀ fuel, ∀ q ∈ (countFiles fs readdir fuel path).calls, ∀ d, fs.opendir q = some d →
        CutsApart fs readdir q d := by
  constructor
  · rintro ⟨fuel, hends, -, hdescends⟩ fuel' q hq d' hd'
    refine (descends_iff hlists hd').mp (hdescends q ?_ d' hd')
    obtain hle | hle := Nat.le_total fuel fuel'
    · rw [(countFiles_extends hle).2 hends] at hq
      exact hq
    · exact (countFiles_extends hle).1 hq
  · intro hcuts
    obtain ⟨hlookup, search, es, hget⟩ := FileSystem.opendir_some hopendir
    have hruns := countFiles_runs hlists hlookup hget Nat.le.refl (hcuts _)
    exact ⟨_, hruns.ends, hruns.nodup, fun q hq d hd => (descends_iff hlists hd).mpr
      (hcuts _ q hq d hd)⟩

theorem goesDown_sample : GoesDown sample (inOrder sample) [0x61, slash] := by
  have hopendir : sample.opendir [0x61, slash, 0x62] = some [nameA, nameB] := by decide +kernel
  have hcalls : (countFiles sample (inOrder sample) 10 [0x61, slash]).calls =
      [[0x61, slash], [0x61, slash, 0x62]] := by decide +kernel
  refine ⟨10, by decide +kernel, by decide +kernel, fun q hq d hd => ?_⟩
  rw [hcalls, List.mem_cons, List.mem_singleton] at hq
  obtain rfl | rfl := hq
  · cases opendir_sample.symm.trans hd
    have hrecorded : recorded sample (inOrder sample) [0x61, slash] [nameA] = [[0x62]] := by
      decide +kernel
    refine ⟨?_, ?_⟩
    · rw [hrecorded, List.forall_mem_singleton]
      exact ⟨[nameB], nofun, by decide +kernel⟩
    · rw [hrecorded]
      exact List.nodup_singleton _
  · cases hopendir.symm.trans hd
    have hrecorded : recorded sample (inOrder sample) [0x61, slash, 0x62] [nameA, nameB] = [] := by
      decide +kernel
    refine ⟨?_, ?_⟩
    · rw [hrecorded]
      exact nofun
    · rw [hrecorded]
      exact List.nodup_nil

theorem countFiles_goesDown_sample : GoesDown sample (inOrder sample) [0x61, slash] ∧
    ∀ fuel, ∀ q ∈ (countFiles sample (inOrder sample) fuel [0x61, slash]).calls,
      ∀ d, sample.opendir q = some d → CutsApart sample (inOrder sample) q d :=
  ⟨goesDown_sample,
    (countFiles_goesDown_iff (lists_inOrder sample) opendir_sample).mp goesDown_sample⟩

/-! ## A path with no room behind it -/

/-- A root with one file. -/
def lone : FileSystem := ⟨.directory true true [(nameA, .regular)], by decide, []⟩

/-- A path of slashes, one more than the number given. -/
def slashes (k : Nat) : Bytes := List.replicate (k + 1) slash

theorem split_replicate (k : Nat) :
    (List.replicate k slash).splitOn slash = List.replicate (k + 1) [] := by
  induction k with
  | zero => rfl
  | succ k ih =>
    have hsplit := List.splitOn_append_cons_self (a := slash) [] (List.replicate k slash)
    rw [List.replicate_succ (n := k + 1), ← ih]
    exact hsplit

theorem resolve_replicate {k j : Nat} {follow : Bool} (hnext : fs.next d [] = some (.enter d)) :
    fs.resolve follow k d (List.replicate j []) = some d := by
  induction j with
  | zero => exact FileSystem.resolve_nil
  | succ j ih => rw [List.replicate_succ, FileSystem.resolve_enter hnext, ih]

section
variable {k : Nat}

theorem lookup_slashes (hk : k + 2 = pathMax) (follow : Bool) :
    lone.lookup follow (slashes k) = some [] := by
  have hnext : lone.next [] [] = some (.enter []) := rfl
  have hne : slashes k ≠ [] := List.cons_ne_nil slash _
  have hlen : (slashes k).length < pathMax := by
    rw [slashes, List.length_replicate]
    omega
  have hstart : FileSystem.start lone.cwd (slashes k) = [] := rfl
  rw [FileSystem.lookup_eq hne hlen, hstart, slashes, split_replicate, resolve_replicate hnext]

theorem opendir_slashes (hk : k + 2 = pathMax) : lone.opendir (slashes k) = some [] := by
  rw [FileSystem.opendir, lookup_slashes hk]
  rfl

theorem strip_slashes : strip (slashes k) = List.replicate k slash := by
  have hlast : (slashes k).getLast? = some slash := by
    rw [slashes, List.replicate_succ', List.getLast?_concat]
  rw [strip, if_pos hlast, slashes, List.dropLast_replicate, Nat.add_sub_cancel]

/-- The slash behind the path is all that fits. -/
theorem fullPath_slashes (hk : k + 2 = pathMax) :
    fullPath (strip (slashes k)) name = slashes k := by
  have hroom : pathMax - 1 - k = 1 := by omega
  rw [strip_slashes, fullPath_cut (by rw [List.length_replicate]; omega), List.length_replicate,
    hroom, slashes, List.replicate_succ']
  rfl

theorem lstat_slashes (hk : k + 2 = pathMax) : lone.lstat (fullPath (strip (slashes k)) name) =
    some (.directory true true [(nameA, .regular)]) := by
  rw [fullPath_slashes hk, FileSystem.lstat, lookup_slashes hk]
  rfl

theorem readEntries_slashes (hk : k + 2 = pathMax) :
    readEntries lone (strip (slashes k)) (inOrder lone []) =
      .ok (0, { init := 10, names := [slashes k] }) := by
  have hnames : inOrder lone [] = [nameA.bytes, dot, dotdot] := rfl
  rw [readEntries, hnames]
  simp only [List.foldlM_cons, readEntry, lstat_slashes hk]
  rw [fullPath_slashes hk]
  rfl

theorem recorded_slashes (hk : k + 2 = pathMax) :
    nameA.bytes ∈ recorded lone (inOrder lone) (slashes k) [] := by
  refine List.mem_filter.mpr ⟨.head _, ?_⟩
  exact records_iff.mpr ⟨⟨_, lstat_slashes hk, rfl⟩, nameA.ne_dot, nameA.ne_dotdot⟩

theorem ret_slashes (hk : k + 2 = pathMax) (fuel : Nat) :
    (countFiles lone (inOrder lone) fuel (slashes k)).ret = .error .fuel := by
  induction fuel with
  | zero => rfl
  | succ fuel ih =>
    rw [countFiles, opendir_slashes hk]
    simp only [readEntries_slashes hk, sumSubdirs, ih]

end

/-- The call for a path of 4095 slashes calls for it again and never ends. -/
theorem countFiles_slashes : lone.Lists (inOrder lone) ∧ lone.opendir (slashes 4094) = some [] ∧
    (∃ name ∈ recorded lone (inOrder lone) (slashes 4094) [],
      lone.lookup true (fullPath (strip (slashes 4094)) name) = some []) ∧
    (∀ fuel, (countFiles lone (inOrder lone) fuel (slashes 4094)).ret = .error .fuel) ∧
    ¬GoesDown lone (inOrder lone) (slashes 4094) := by
  have hk : 4094 + 2 = pathMax := rfl
  refine ⟨lists_inOrder lone, opendir_slashes hk, ⟨_, recorded_slashes hk, ?_⟩, ret_slashes hk, ?_⟩
  · rw [fullPath_slashes hk, lookup_slashes hk]
  · rintro ⟨fuel, hends, -⟩
    exact hends (ret_slashes hk fuel)

end KoScripts.Tools.FileCounter
