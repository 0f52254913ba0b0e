import KoScripts.Lib.FileTree

/-! # Looking up paths

A path is split at its slashes and walked component by component, from the root or from the working
directory. An empty component stays where it is, so that a slash at the end asks for a directory;
every other one needs the permission to search the directory it is looked up in. A symbolic link
puts the components of its target in front of those still to walk, except that the last component
of a path is not followed by `lstat`. -/

namespace Lib.FileTree

/-- The size of a buffer for a path, with the byte that ends it. -/
def pathMax : Nat := 4096

/-- How many symbolic links one lookup follows. -/
def maxSymlinks : Nat := 40

structure FileSystem where
  root : Node
  wf : root.WF
  cwd : Loc

/-- What a component is, looked up in a directory. -/
inductive Next
  | enter (l : Loc)
  | link (l : Loc) (target : Bytes)

namespace FileSystem
variable (fs : FileSystem)

/-- Where the walk of a path starts. -/
def start (cur : Loc) (path : Bytes) : Loc := if path.head? = some slash then [] else cur

def next (cur : Loc) (c : Bytes) : Option Next :=
  match fs.root.get cur with
  | some (.directory _ searchable es) =>
    if c = [] then some (.enter cur)
    else if searchable = false then none
    else if c = dot then some (.enter cur)
    else if c = dotdot then some (.enter cur.dropLast)
    else (Node.entry es c).map fun e =>
      match e.2 with
      | .symlink target => .link (cur ++ [e.1]) target
      | _ => .enter (cur ++ [e.1])
  | _ => none

/-- Walk the components from `cur` on; `jump` goes on behind a symbolic link. -/
def walk (follow : Bool) (jump : Loc → List Bytes → Option Loc) : Loc → List Bytes → Option Loc
  | cur, [] => some cur
  | cur, c :: cs =>
    match fs.next cur c with
    | none => none
    | some (.enter l) => walk follow jump l cs
    | some (.link l target) =>
      if cs = [] ∧ follow = false then some l
      else if target = [] then none
      else jump (start cur target) (target.splitOn slash ++ cs)

/-- Walk the components with at most the given number of symbolic links on the way. -/
def resolve (follow : Bool) : Nat → Loc → List Bytes → Option Loc
  | 0 => fs.walk follow fun _ _ => none
  | k + 1 => fs.walk follow (resolve follow k)

def lookup (follow : Bool) (path : Bytes) : Option Loc :=
  if path = [] ∨ pathMax ≤ path.length then none
  else fs.resolve follow maxSymlinks (start fs.cwd path) (path.splitOn slash)

def lstat (path : Bytes) : Option Node := (fs.lookup false path).bind fs.root.get

/-- The directory opened. -/
def opendir (path : Bytes) : Option Loc :=
  (fs.lookup true path).bind fun l =>
    match fs.root.get l with
    | some (.directory true _ _) => some l
    | _ => none

/-- In whatever order, `readdir` lists the entries of a directory, perhaps with `.` and `..`. -/
def Lists (readdir : Loc → List Bytes) : Prop :=
  ∀ l r s es, fs.root.get l = some (.directory r s es) → ∃ dots : List Bytes,
    (readdir l).Perm (es.map (·.1.bytes) ++ dots) ∧ ∀ c ∈ dots, c = dot ∨ c = dotdot

variable {fs} {l d : Loc} {c : Bytes} {cs rest : List Bytes} {follow : Bool} {k : Nat}
  {r s : Bool} {es : List (Name × Node)} {name : Name} {m n : Node}

/-! ## One component -/

theorem next_of_directory (h : fs.root.get d = some (.directory r s es)) : fs.next d c =
    if c = [] then some (.enter d)
    else if s = false then none
    else if c = dot then some (.enter d)
    else if c = dotdot then some (.enter d.dropLast)
    else (Node.entry es c).map fun e =>
      match e.2 with
      | .symlink target => .link (d ++ [e.1]) target
      | _ => .enter (d ++ [e.1]) := by
  rw [next, h]

/-- A component is empty or one of the two special ones, or it is the name of an entry. -/
theorem next_cases {x : Next} (h : fs.next d c = some x) :
    (c = [] ∨ c = dot) ∧ x = .enter d ∨ c = dotdot ∧ x = .enter d.dropLast ∨
      ∃ r es e, fs.root.get d = some (.directory r true es) ∧ Node.entry es c = some e ∧
        x = match e.2 with
          | .symlink target => .link (d ++ [e.1]) target
          | _ => .enter (d ++ [e.1]) := by
  rw [next] at h
  split at h
  case h_2 => cases h
  case h_1 r s es hd =>
    split at h
    case isTrue hc =>
      cases h
      exact .inl ⟨.inl hc, rfl⟩
    case isFalse =>
      split at h
      case isTrue => cases h
      case isFalse hs =>
        split at h
        case isTrue hc =>
          cases h
          exact .inl ⟨.inr hc, rfl⟩
        case isFalse =>
          split at h
          case isTrue hc =>
            cases h
            exact .inr (.inl ⟨hc, rfl⟩)
          case isFalse =>
            obtain ⟨e, he, rfl⟩ := Option.map_eq_some_iff.mp h
            rw [Bool.not_eq_false] at hs
            exact .inr (.inr ⟨r, es, e, hs ▸ hd, he, rfl⟩)

/-- A link that is found is there. -/
theorem get_of_link {target : Bytes} (h : fs.next d c = some (.link l target)) :
    fs.root.get l = some (.symlink target) := by
  obtain ⟨-, hx⟩ | ⟨-, hx⟩ | ⟨r, es, e, hd, he, hx⟩ := next_cases h
  · cases hx
  · cases hx
  · split at hx
    case h_1 hsymlink =>
      cases hx
      rw [Node.get_snoc hd he, hsymlink]
    case h_2 => cases hx

/-! ## Walking on -/

/-- From where the components lead, if they do, the walk of more components goes on. -/
def Leads (fs : FileSystem) (walks : Bool → List Bytes → Option Loc) : Option Loc → Prop
  | none => ∀ follow rest, rest ≠ [] → walks follow rest = none
  | some l => ∃ k, ∀ follow rest, rest ≠ [] → walks follow rest = fs.resolve follow k l rest

theorem Leads.congr {walks walks' : Bool → List Bytes → Option Loc} {x : Option Loc}
    (h : fs.Leads walks x)
    (heq : ∀ follow rest, rest ≠ [] → walks' follow rest = walks follow rest) :
    fs.Leads walks' x := by
  cases x with
  | none => exact fun follow rest hrest => (heq follow rest hrest).trans (h follow rest hrest)
  | some l =>
    obtain ⟨k, h⟩ := h
    exact ⟨k, fun follow rest hrest => (heq follow rest hrest).trans (h follow rest hrest)⟩

/-- A link that is followed, be it only for the components behind it. -/
theorem walk_link {jump : Loc → List Bytes → Option Loc} {target : Bytes}
    (hnext : fs.next l c = some (.link d target)) (h : cs ≠ [] ∨ follow = true) :
    fs.walk follow jump l (c :: cs) =
      if target = [] then none else jump (start l target) (target.splitOn slash ++ cs) := by
  rw [walk, hnext]
  refine if_neg fun hc => ?_
  obtain hcs | hfollow := h
  · exact hcs hc.1
  · exact Bool.false_ne_true (hc.2.symm.trans hfollow)

theorem walk_leads (jump : Bool → Loc → List Bytes → Option Loc)
    (hk : ∀ follow, fs.walk follow (jump follow) = fs.resolve follow k)
    (hj : ∀ l cs, fs.Leads (fun follow rest => jump follow l (cs ++ rest)) (jump true l cs))
    (l : Loc) (cs : List Bytes) :
    fs.Leads (fun follow rest => fs.walk follow (jump follow) l (cs ++ rest))
      (fs.walk true (jump true) l cs) := by
  induction cs generalizing l with
  | nil =>
    refine ⟨k, fun follow rest _ => ?_⟩
    rw [← hk]
    rfl
  | cons c cs ih =>
    cases hnext : fs.next l c with
    | none =>
      simp only [List.cons_append, walk, hnext]
      exact fun _ _ _ => rfl
    | some next =>
      cases next with
      | enter l' =>
        simp only [List.cons_append, walk, hnext]
        exact ih l'
      | link l' target =>
        have hmore (follow : Bool) (rest : List Bytes) (hrest : rest ≠ []) :
            fs.walk follow (jump follow) l (c :: cs ++ rest) = if target = [] then none
              else jump follow (start l target) (target.splitOn slash ++ cs ++ rest) := by
          have hne : cs ++ rest ≠ [] := List.append_ne_nil_of_right_ne_nil cs hrest
          rw [List.cons_append, walk_link hnext (.inl hne), List.append_assoc]
        rw [walk_link hnext (.inr rfl)]
        obtain htarget | htarget := Decidable.eq_or_ne target []
        · rw [if_pos htarget]
          exact fun follow rest hrest => (hmore follow rest hrest).trans (if_pos htarget)
        · rw [if_neg htarget]
          exact (hj (start l target) (target.splitOn slash ++ cs)).congr fun follow rest hrest =>
            (hmore follow rest hrest).trans (if_neg htarget)

theorem resolve_leads (fs : FileSystem) (k : Nat) (l : Loc) (cs : List Bytes) :
    fs.Leads (fun follow rest => fs.resolve follow k l (cs ++ rest)) (fs.resolve true k l cs) := by
  induction k generalizing l cs with
  | zero =>
    exact walk_leads (k := 0) (fun _ _ _ => none) (fun _ => rfl) (fun _ _ _ _ _ => rfl) l cs
  | succ k ih =>
    exact walk_leads (k := k + 1) (fun follow => fs.resolve follow k) (fun _ => rfl) ih l cs

/-! ## One step of a walk -/

@[simp]
theorem resolve_nil : fs.resolve follow k l [] = some l := by
  cases k <;> rfl

theorem resolve_none (h : fs.next l c = none) : fs.resolve follow k l (c :: cs) = none := by
  cases k <;> rw [resolve, walk, h]

theorem resolve_enter (h : fs.next l c = some (.enter d)) :
    fs.resolve follow k l (c :: cs) = fs.resolve follow k d cs := by
  cases k <;> rw [resolve, walk, h]

theorem resolve_link {target : Bytes} (h : fs.next l c = some (.link d target)) :
    fs.resolve false k l [c] = some d := by
  cases k <;> simp only [resolve, walk, h, and_self, if_true]

theorem next_nil (fs : FileSystem) (l : Loc) :
    fs.next l [] = none ∨ fs.next l [] = some (.enter l) := by
  rw [next]
  split
  · exact .inr rfl
  · exact .inl rfl

theorem next_entry {e : Name × Node} (hd : fs.root.get d = some (.directory r true es))
    (he : Node.entry es c = some e) : fs.next d c =
      match e.2 with
      | .symlink target => some (.link (d ++ [e.1]) target)
      | _ => some (.enter (d ++ [e.1])) := by
  have hbytes : e.1.bytes = c := (Node.mem_of_entry he).2
  rw [next_of_directory hd, if_neg (hbytes ▸ e.1.ne_nil), if_neg (nofun),
    if_neg (hbytes ▸ e.1.ne_dot), if_neg (hbytes ▸ e.1.ne_dotdot), he, Option.map_some]
  split <;> rfl

/-- What is entered is a directory or an entry that is no link. -/
theorem next_enter (h : fs.next d c = some (.enter l)) :
    (c = [] ∨ c = dot) ∧ l = d ∨ c = dotdot ∧ l = d.dropLast ∨
      ∃ r es e, fs.root.get d = some (.directory r true es) ∧ Node.entry es c = some e ∧
        l = d ++ [e.1] := by
  obtain ⟨hc, hx⟩ | ⟨hc, hx⟩ | ⟨r, es, e, hd, he, hx⟩ := next_cases h
  · cases hx
    exact .inl ⟨hc, rfl⟩
  · cases hx
    exact .inr (.inl ⟨hc, rfl⟩)
  · split at hx
    · cases hx
    · cases hx
      exact .inr (.inr ⟨r, es, e, hd, he, rfl⟩)

/-- The components that are no names lead to the directory or to the one it is in. -/
theorem next_dots (hc : c = [] ∨ c = dot ∨ c = dotdot) (h : fs.next d c = some (.enter l)) :
    l = d ∨ l = d.dropLast := by
  obtain h | h | ⟨r, es, e, -, he, -⟩ := next_enter h
  · exact .inl h.2
  · exact .inr h.2
  · obtain ⟨-, hbytes⟩ := Node.mem_of_entry he
    subst hbytes
    obtain hc | hc | hc := hc
    · exact absurd hc e.1.ne_nil
    · exact absurd hc e.1.ne_dot
    · exact absurd hc e.1.ne_dotdot

/-! ## A lookup -/

theorem lookup_some {path : Bytes} (h : fs.lookup follow path = some l) :
    path ≠ [] ∧ path.length < pathMax ∧
      fs.resolve follow maxSymlinks (start fs.cwd path) (path.splitOn slash) = some l := by
  rw [lookup] at h
  split at h
  case isTrue => cases h
  case isFalse hpath =>
    rw [not_or, Nat.not_le] at hpath
    exact ⟨hpath.1, hpath.2, h⟩

theorem lookup_eq {path : Bytes} (hne : path ≠ []) (hlt : path.length < pathMax) :
    fs.lookup follow path =
      fs.resolve follow maxSymlinks (start fs.cwd path) (path.splitOn slash) := by
  rw [lookup, if_neg (not_or.mpr ⟨hne, Nat.not_le.mpr hlt⟩)]

theorem opendir_some {path : Bytes} (h : fs.opendir path = some d) :
    fs.lookup true path = some d ∧ ∃ s es, fs.root.get d = some (.directory true s es) := by
  obtain ⟨l, hl, h⟩ := Option.bind_eq_some_iff.mp h
  split at h
  case h_1 s es hget =>
    cases h
    exact ⟨hl, s, es, hget⟩
  case h_2 => cases h

/-- Not to follow a link at the end makes a difference only if there is one. -/
theorem walk_nofollow (jump : Bool → Loc → List Bytes → Option Loc)
    (hj : ∀ l cs, jump true l cs = some d → jump false l cs = some d ∨
      ∃ l' target, jump false l cs = some l' ∧ fs.root.get l' = some (.symlink target))
    (h : fs.walk true (jump true) l cs = some d) :
    fs.walk false (jump false) l cs = some d ∨ ∃ l' target,
      fs.walk false (jump false) l cs = some l' ∧ fs.root.get l' = some (.symlink target) := by
  induction cs generalizing l with
  | nil => exact .inl h
  | cons c cs ih =>
    rw [walk] at h
    rw [walk]
    cases hnext : fs.next l c with
    | none =>
      rw [hnext] at h
      cases h
    | some next =>
      rw [hnext] at h
      cases next with
      | enter l' => exact ih h
      | link l' target =>
        cases cs with
        | nil => exact .inr ⟨l', target, rfl, get_of_link hnext⟩
        | cons c' cs =>
          simp only [reduceCtorEq, false_and, if_false] at h ⊢
          obtain htarget | htarget := Decidable.eq_or_ne target []
          · rw [if_pos htarget] at h
            cases h
          · rw [if_neg htarget] at h ⊢
            exact hj _ _ h

theorem resolve_nofollow (h : fs.resolve true k l cs = some d) :
    fs.resolve false k l cs = some d ∨ ∃ l' target,
      fs.resolve false k l cs = some l' ∧ fs.root.get l' = some (.symlink target) := by
  induction k generalizing l cs with
  | zero =>
    exact walk_nofollow (fun _ _ _ => none) (fun _ _ hnone => nomatch hnone) h
  | succ k ih => exact walk_nofollow (fun follow => fs.resolve follow k) (fun _ _ => ih) h

theorem lookup_nofollow {path : Bytes} (h : fs.lookup true path = some d) :
    fs.lookup false path = some d ∨ ∃ l' target,
      fs.lookup false path = some l' ∧ fs.root.get l' = some (.symlink target) := by
  obtain ⟨hne, hlt, h⟩ := lookup_some h
  rw [lookup_eq hne hlt]
  exact resolve_nofollow h

/-! ## Below a directory -/

/-- With a slash behind it and more components, the path leads on from the directory. -/
def Names (fs : FileSystem) (path : Bytes) (d : Loc) : Prop :=
  ∃ k, ∀ follow rest, rest ≠ [] →
    fs.resolve follow maxSymlinks (start fs.cwd (path ++ [slash])) (path.splitOn slash ++ rest) =
      fs.resolve follow k d rest

theorem start_append {cur : Loc} {p q : Bytes} (hne : p ≠ []) :
    start cur (p ++ q) = start cur p := by
  rw [start, start, List.head?_append_of_ne_nil _ hne]

theorem start_slash {cur : Loc} {p q q' : Bytes} :
    start cur (p ++ slash :: q) = start cur (p ++ slash :: q') := by
  cases p <;> rfl

theorem slash_ne_nil {p q : Bytes} : p ++ slash :: q ≠ [] :=
  List.append_ne_nil_of_right_ne_nil p (List.cons_ne_nil slash q)

theorem split_slash {p : Bytes} (hc : slash ∉ c) :
    (p ++ slash :: c).splitOn slash = p.splitOn slash ++ [c] := by
  rw [List.splitOn_append_cons_self, List.splitOn_eq_singleton hc]

theorem names_of_lookup {path : Bytes} (h : fs.lookup true path = some d) : fs.Names path d := by
  obtain ⟨hne, -, h⟩ := lookup_some h
  have hleads := fs.resolve_leads maxSymlinks (start fs.cwd path) (path.splitOn slash)
  rw [h] at hleads
  rw [Names, start_append hne]
  exact hleads

/-- Without the slash at its end, a path still leads on. -/
theorem names_of_slash {path : Bytes} (h : fs.lookup true (path ++ [slash]) = some d) :
    fs.Names path d := by
  obtain ⟨-, -, h⟩ := lookup_some h
  rw [List.splitOn_append_cons_self, List.splitOn_nil] at h
  have hleads := fs.resolve_leads maxSymlinks (start fs.cwd (path ++ [slash]))
    (path.splitOn slash)
  revert hleads
  cases fs.resolve true maxSymlinks (start fs.cwd (path ++ [slash])) (path.splitOn slash) with
  | none =>
    intro hleads
    have hnone : fs.resolve true maxSymlinks _ (path.splitOn slash ++ [[]]) = none :=
      hleads true [[]] nofun
    rw [hnone] at h
    cases h
  | some l =>
    rintro ⟨k, hleads⟩
    have hl : fs.resolve true k l [[]] = some d := (hleads true [[]] nofun).symm.trans h
    obtain hnext | hnext := fs.next_nil l
    · rw [resolve_none hnext] at hl
      cases hl
    · rw [resolve_enter hnext, resolve_nil] at hl
      cases hl
      exact ⟨k, hleads⟩

namespace Names
variable {path : Bytes}

theorem lookup_eq (h : fs.Names path d) (hc : slash ∉ c)
    (hlt : (path ++ slash :: c).length < pathMax) :
    ∃ k, ∀ follow, fs.lookup follow (path ++ slash :: c) = fs.resolve follow k d [c] := by
  obtain ⟨k, h⟩ := h
  refine ⟨k, fun follow => ?_⟩
  rw [FileSystem.lookup_eq slash_ne_nil hlt, start_slash,
    split_slash hc]
  exact h follow [c] nofun

theorem lookup_enter (h : fs.Names path d) (hc : slash ∉ c)
    (hlt : (path ++ slash :: c).length < pathMax) (hnext : fs.next d c = some (.enter l)) :
    fs.lookup follow (path ++ slash :: c) = some l := by
  obtain ⟨k, hk⟩ := h.lookup_eq hc hlt
  rw [hk, resolve_enter hnext, resolve_nil]

/-- An entry is found below the directory, and `lstat` follows no link. -/
theorem lookup_entry {e : Name × Node} (h : fs.Names path d)
    (hd : fs.root.get d = some (.directory r true es)) (he : Node.entry es c = some e)
    (hlt : (path ++ slash :: c).length < pathMax) :
    fs.lookup false (path ++ slash :: c) = some (d ++ [e.1]) := by
  have hc : slash ∉ c := (Node.mem_of_entry he).2 ▸ e.1.no_slash
  have hnext := next_entry hd he
  split at hnext
  · obtain ⟨k, hk⟩ := h.lookup_eq hc hlt
    rw [hk, resolve_link hnext]
  · exact h.lookup_enter hc hlt hnext

theorem lstat_entry {e : Name × Node} (h : fs.Names path d)
    (hd : fs.root.get d = some (.directory r true es)) (he : Node.entry es c = some e)
    (hlt : (path ++ slash :: c).length < pathMax) :
    fs.lstat (path ++ slash :: c) = some e.2 := by
  rw [lstat, h.lookup_entry hd he hlt, Option.bind_some, Node.get_snoc hd he]

/-- What `lstat` finds behind a slash is a link, or it is entered. -/
theorem lstat_some (h : fs.Names path d) (hc : slash ∉ c)
    (hlt : (path ++ slash :: c).length < pathMax) (hm : fs.lstat (path ++ slash :: c) = some m) :
    (∃ l, fs.next d c = some (.enter l) ∧ fs.root.get l = some m) ∨
      ∃ target, m = .symlink target := by
  obtain ⟨l, hl, hget⟩ := Option.bind_eq_some_iff.mp hm
  obtain ⟨k, hk⟩ := h.lookup_eq hc hlt
  rw [hk] at hl
  cases hnext : fs.next d c with
  | none =>
    rw [resolve_none hnext] at hl
    cases hl
  | some next =>
    cases next with
    | enter l' =>
      rw [resolve_enter hnext, resolve_nil] at hl
      cases hl
      exact .inl ⟨l, rfl, hget⟩
    | link l' target =>
      rw [resolve_link hnext] at hl
      cases hl
      rw [get_of_link hnext] at hget
      cases hget
      exact .inr ⟨target, rfl⟩

/-- Where `lstat` finds something under a name, the directory may be searched. -/
theorem searchable (h : fs.Names path d) (hc : slash ∉ c) (hne : c ≠ [])
    (hlt : (path ++ slash :: c).length < pathMax) (hd : fs.root.get d = some (.directory r s es))
    (hm : (fs.lstat (path ++ slash :: c)).isSome) : s = true := by
  cases s with
  | true => rfl
  | false =>
    obtain ⟨k, hk⟩ := h.lookup_eq hc hlt
    have hnext : fs.next d c = none := by
      rw [next_of_directory hd, if_neg hne]
      rfl
    rw [lstat, hk, resolve_none hnext] at hm
    cases hm

end Names

end FileSystem
end Lib.FileTree
