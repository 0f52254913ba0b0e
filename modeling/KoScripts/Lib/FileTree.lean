import Mathlib.Data.List.Nodup
import Mathlib.Data.Set.Card

/-! # File trees

A node is a file, a directory with its named entries, or a symbolic link, and a place in a tree is
the list of the names that lead there. `places` lists the nodes at and below a node with their
places; where the names of each directory are distinct, it has every place of the tree once. -/

namespace Lib.FileTree

abbrev Bytes := List UInt8

def slash : UInt8 := 0x2f

def dot : Bytes := [0x2e]

def dotdot : Bytes := [0x2e, 0x2e]

structure Name where
  bytes : Bytes
  ne_nil : bytes ≠ []
  no_slash : slash ∉ bytes
  ne_dot : bytes ≠ dot
  ne_dotdot : bytes ≠ dotdot
deriving DecidableEq

theorem Name.ext_iff' {m n : Name} : m = n ↔ m.bytes = n.bytes := by
  refine ⟨congrArg Name.bytes, fun h => ?_⟩
  obtain ⟨_, _, _, _, _⟩ := m
  obtain ⟨_, _, _, _, _⟩ := n
  cases h
  rfl

inductive Node
  | regular
  | directory (readable searchable : Bool) (entries : List (Name × Node))
  | symlink (target : Bytes)
  | other

abbrev Loc := List Name

namespace Node

def isRegular : Node → Bool
  | .regular => true
  | _ => false

def isDirectory : Node → Bool
  | .directory .. => true
  | _ => false

/-- Not a directory that cannot be opened. -/
def opens : Node → Bool
  | .directory readable .. => readable
  | _ => true

def entries : Node → List (Name × Node)
  | .directory _ _ es => es
  | _ => []

/-- The entry of the given name. -/
def entry (es : List (Name × Node)) (c : Bytes) : Option (Name × Node) :=
  es.find? fun e => e.1.bytes == c

/-- The node at a place. -/
def get : Node → Loc → Option Node
  | n, [] => some n
  | n, name :: l => (entry n.entries name.bytes).bind fun e => get e.2 l

mutual

/-- The nodes at and below a node, with their places. -/
def places : Node → List (Loc × Node)
  | .regular => [([], .regular)]
  | .directory r s es => ([], .directory r s es) :: placesIn es
  | .symlink target => [([], .symlink target)]
  | .other => [([], .other)]

def placesIn : List (Name × Node) → List (Loc × Node)
  | [] => []
  | e :: es => placesAt e ++ placesIn es

def placesAt : Name × Node → List (Loc × Node)
  | (name, n) => (places n).map fun p => (name :: p.1, p.2)

end

/-- The names of every directory are distinct. -/
def WF (n : Node) : Prop := ∀ p ∈ n.places, (p.2.entries.map Prod.fst).Nodup

instance {n : Node} : Decidable n.WF := inferInstanceAs (Decidable (∀ p ∈ n.places, _))

variable {m n : Node} {es : List (Name × Node)} {e : Name × Node} {c : Bytes} {name : Name}
  {l l' : Loc}

theorem places_eq : n.places = ([], n) :: placesIn n.entries := by
  cases n with
  | directory => rw [places, entries]
  | regular | symlink | other => rfl

theorem placesAt_eq : placesAt e = e.2.places.map fun p => (e.1 :: p.1, p.2) := by
  obtain ⟨name, n⟩ := e
  rw [placesAt]

theorem placesIn_eq : placesIn es = es.flatMap placesAt := by
  induction es with
  | nil => rfl
  | cons e es ih => rw [placesIn, ih, List.flatMap_cons]

theorem mem_placesIn {p : Loc × Node} : p ∈ placesIn es ↔
    ∃ e ∈ es, ∃ q ∈ e.2.places, (e.1 :: q.1, q.2) = p := by
  rw [placesIn_eq, List.mem_flatMap]
  simp only [placesAt_eq, List.mem_map]

theorem WF.entries (h : n.WF) : (n.entries.map Prod.fst).Nodup :=
  h ([], n) (by rw [places_eq]; exact .head _)

theorem WF.entry (h : n.WF) (he : e ∈ n.entries) : e.2.WF := by
  intro q hq
  refine h (e.1 :: q.1, q.2) ?_
  rw [places_eq]
  exact .tail _ (mem_placesIn.mpr ⟨e, he, q, hq, rfl⟩)

/-! ## Entries -/

theorem mem_of_entry (h : Node.entry es c = some e) : e ∈ es ∧ e.1.bytes = c := by
  rw [Node.entry] at h
  have hbytes := List.find?_some h
  exact ⟨List.mem_of_find?_eq_some h, beq_iff_eq.mp hbytes⟩

theorem entry_of_mem (hn : (es.map Prod.fst).Nodup) (he : e ∈ es) :
    Node.entry es e.1.bytes = some e := by
  cases hx : Node.entry es e.1.bytes with
  | none =>
    have hne := List.find?_eq_none.mp hx e he
    exact absurd (beq_iff_eq.mpr rfl) hne
  | some e' =>
    obtain ⟨he', hbytes⟩ := mem_of_entry hx
    have heq : e'.1 = e.1 := Name.ext_iff'.mpr hbytes
    rw [List.inj_on_of_nodup_map hn he' he heq]

theorem get_append : n.get (l ++ l') = (n.get l).bind fun m => m.get l' := by
  induction l generalizing n with
  | nil => rfl
  | cons name l ih =>
    rw [List.cons_append, get, get]
    cases Node.entry n.entries name.bytes with
    | none => rfl
    | some e => exact ih

theorem get_snoc (h : n.get l = some m) (he : Node.entry m.entries c = some e) :
    n.get (l ++ [e.1]) = some e.2 := by
  rw [get_append, h, Option.bind_some, get, (mem_of_entry he).2, he]
  rfl

/-- A directory is in a directory, the root in itself. -/
theorem get_dropLast (h : n.get l = some m) (hm : m.isDirectory) :
    ∃ m', n.get l.dropLast = some m' ∧ m'.isDirectory := by
  obtain rfl | ⟨l, name, rfl⟩ := l.eq_nil_or_concat
  · exact ⟨m, h, hm⟩
  · rw [List.concat_eq_append] at h ⊢
    rw [get_append] at h
    obtain ⟨m', hm', h⟩ := Option.bind_eq_some_iff.mp h
    rw [List.dropLast_concat]
    refine ⟨m', hm', ?_⟩
    cases m' with
    | directory => rfl
    | regular | symlink | other => cases h

theorem WF.get (h : n.WF) (hl : n.get l = some m) : m.WF := by
  induction l generalizing n with
  | nil =>
    cases hl
    exact h
  | cons name l ih =>
    obtain ⟨e, he, hl⟩ := Option.bind_eq_some_iff.mp hl
    exact ih (h.entry (mem_of_entry he).1) hl

/-! ## The places of a tree -/

theorem mem_places_iff (h : n.WF) : (l, m) ∈ n.places ↔ n.get l = some m := by
  induction l generalizing n with
  | nil =>
    rw [places_eq, List.mem_cons]
    constructor
    · rintro (heq | hmem)
      · cases heq
        rfl
      · obtain ⟨e, -, q, -, heq⟩ := mem_placesIn.mp hmem
        cases heq
    · intro hm
      cases hm
      exact .inl rfl
  | cons name l ih =>
    rw [places_eq, List.mem_cons, or_iff_right nofun, mem_placesIn, get,
      Option.bind_eq_some_iff]
    constructor
    · rintro ⟨e, he, q, hq, heq⟩
      cases heq
      exact ⟨e, entry_of_mem h.entries he, (ih (h.entry he)).mp hq⟩
    · rintro ⟨e, he, hget⟩
      obtain ⟨hmem, hbytes⟩ := mem_of_entry he
      refine ⟨e, hmem, (l, m), (ih (h.entry hmem)).mpr hget, ?_⟩
      rw [Name.ext_iff'.mpr hbytes]

theorem sizeOf_pos (n : Node) : 0 < sizeOf n := by
  cases n with
  | directory => simp only [directory.sizeOf_spec, Nat.add_assoc, Nat.lt_add_right, Nat.zero_lt_one]
  | regular => simp only [regular.sizeOf_spec, Nat.zero_lt_one]
  | symlink => simp only [symlink.sizeOf_spec, Nat.lt_add_right, Nat.zero_lt_one]
  | other => simp only [other.sizeOf_spec, Nat.zero_lt_one]

theorem sizeOf_entry (he : e ∈ n.entries) : sizeOf e.2 < sizeOf n := by
  cases n with
  | directory r s es =>
    have hlt : sizeOf e < sizeOf es := List.sizeOf_lt_of_mem he
    have hsnd : sizeOf e.2 < sizeOf e := by
      cases e
      simp only [Prod.mk.sizeOf_spec]
      omega
    simp only [directory.sizeOf_spec]
    omega
  | regular | symlink | other => cases he

/-- What holds of a node if it holds of its entries holds of every node. -/
@[elab_as_elim]
theorem induct {P : Node → Prop} (step : ∀ n, (∀ e ∈ n.entries, P e.2) → P n) (n : Node) : P n :=
  step n fun e _ => induct step e.2
termination_by sizeOf n
decreasing_by exact sizeOf_entry ‹_›

/-- Each place is listed once. -/
theorem nodup_places (h : n.WF) : (n.places.map Prod.fst).Nodup := by
  induction n using induct with
  | step n ih =>
    have hcons (e : Name × Node) : (placesAt e).map Prod.fst =
        (e.2.places.map Prod.fst).map (e.1 :: ·) := by
      rw [placesAt_eq, List.map_map, List.map_map]
      rfl
    rw [places_eq, List.map_cons, List.nodup_cons, placesIn_eq, List.map_flatMap,
      List.nodup_flatMap]
    refine ⟨fun hmem => ?_, fun e he => ?_, ?_⟩
    · obtain ⟨e, -, hmem⟩ := List.mem_flatMap.mp hmem
      rw [hcons] at hmem
      obtain ⟨l, -, heq⟩ := List.mem_map.mp hmem
      cases heq
    · rw [hcons]
      exact (ih e he (h.entry he)).map List.cons_injective
    · -- The places below two entries differ in the first name.
      refine (List.pairwise_map.mp h.entries).imp fun {e e'} hne l
        (hl : l ∈ (placesAt e).map Prod.fst) (hl' : l ∈ (placesAt e').map Prod.fst) => ?_
      rw [hcons] at hl hl'
      obtain ⟨k, -, rfl⟩ := List.mem_map.mp hl
      obtain ⟨k', -, heq⟩ := List.mem_map.mp hl'
      exact hne (List.cons.inj heq).1.symm

/-- To count in the list of the places is to count the places. -/
theorem countP_places (h : n.WF) (p : Node → Bool) :
    n.places.countP (fun q => p q.2) = {l | ∃ m, n.get l = some m ∧ p m}.ncard := by
  have hnodup : ((n.places.filter fun q => p q.2).map Prod.fst).Nodup :=
    (nodup_places h).sublist (List.filter_sublist.map Prod.fst)
  have hset : {l | ∃ m, n.get l = some m ∧ p m} =
      (((n.places.filter fun q => p q.2).map Prod.fst).toFinset : Set Loc) := by
    ext l
    simp only [Set.mem_ofPred_eq, List.coe_toFinset, List.mem_map, List.mem_filter, Prod.exists,
      exists_and_right, exists_eq_right, mem_places_iff h]
  rw [hset, Set.ncard_coe_finset, List.toFinset_card_of_nodup hnodup, List.length_map,
    List.countP_eq_length_filter]

end Node
end Lib.FileTree
