import KoScripts.DataStruct.UtHashInvariant
import KoScripts.Lib.Machine

/-! # The students

`src/datastruct/hash.c`: elements with a number and a name in a hash with the number as key. What
the hash is for is the roll: who is in it, in the order of admission. A program that adds an element
only while it is not in the hash, and deletes it only while it is, gets from the hash what the roll
says; it may use a number twice, since `HASH_ADD` does not look. -/

namespace KoScripts.DataStruct.Students
open Lib UtHash

/-! ## The program -/

/-- The bytes of an `int`. -/
def idBytes (id : Int32) : Key :=
  let u := id.toUInt32
  [u.toUInt8, (u >>> 8).toUInt8, (u >>> 16).toUInt8, (u >>> 24).toUInt8]

theorem toNat_bytes (u : UInt32) : u.toNat = u.toUInt8.toNat + 256 * ((u >>> 8).toUInt8.toNat +
    256 * ((u >>> 16).toUInt8.toNat + 256 * (u >>> 24).toUInt8.toNat)) := by
  have := u.toNat_lt
  have h₁ : (u >>> 8).toNat = u.toNat / 2 ^ 8 := Nat.shiftRight_eq_div_pow ..
  have h₂ : (u >>> 16).toNat = u.toNat / 2 ^ 16 := Nat.shiftRight_eq_div_pow ..
  have h₃ : (u >>> 24).toNat = u.toNat / 2 ^ 24 := Nat.shiftRight_eq_div_pow ..
  simp only [UInt32.toNat_toUInt8, h₁, h₂, h₃]
  omega

theorem idBytes_injective : Function.Injective idBytes := by
  rintro ⟨u⟩ ⟨v⟩ h
  injection h with h₀ h
  injection h with h₁ h
  injection h with h₂ h
  injection h with h₃ h
  refine congrArg Int32.ofUInt32 (UInt32.toNat_inj.mp ?_)
  rw [toNat_bytes u, h₀, h₁, h₂, h₃, ← toNat_bytes]

def addStu (fuel : Nat) (malloc : Malloc) (students : Hash) (s : Addr) : Except Stop Hash :=
  hashAdd hashJen fuel malloc students s

/-- `free(s)` -/
def free (m : Mem) (s : Addr) : Except Stop Mem := do
  m.access s
  return { m with live := Function.update m.live s false }

def delStu (students : Hash) (s : Addr) : Except Stop Hash := do
  let students ← hashDelete students s
  let mem ← free students.mem s
  return { students with mem }

def findStu (fuel : Nat) (students : Hash) (key : Int32) : Except Stop (Option Addr) :=
  hashFind hashJen fuel students (idBytes key)

/-- The loop at the end of `main`: every element is printed and deleted. -/
def delAll (fuel : Nat) (students : Hash) (name : Addr → String) :
    Except Stop (Hash × List String) :=
  hashIter (fun students cur => do
    students.mem.access cur
    let students ← delStu students cur
    return (students, "del stu " ++ name cur ++ "\n")) fuel students

/-- `malloc` and the store to `id`, the address being the one `malloc` gives. -/
def newStu (students : Hash) (s : Addr) (id : Int32) : Hash :=
  { students with mem := { students.mem with
    live := Function.update students.mem.live s true
    key := Function.update students.mem.key s (idBytes id) } }

/-- `s = find_stu(id)` and the `printf` of the name behind `text`. -/
def printStu (fuel : Nat) (students : Hash) (name : Addr → String) (text : String) (id : Int32) :
    Except Stop String := do
  let s ← deref (← findStu fuel students id)
  students.mem.access s
  return text ++ name s ++ "\n"

/-- `main`, with the addresses of its two elements: what it leaves and what it prints. -/
def main (fuel : Nat) (malloc : Malloc) (students : Hash) (tom jack : Addr) :
    Except Stop (Hash × List String) := do
  let name := fun s => if s = tom then "tom" else "jack"
  let students ← addStu fuel malloc (newStu students tom 1) tom
  let line₁ ← printStu fuel students name "id 1 stu is " 1
  let students ← addStu fuel malloc (newStu students jack 2) jack
  let line₂ ← printStu fuel students name "id 2 stu is " 2
  let count ← hashCount students
  let (students, lines) ← delAll fuel students name
  return (students,
    [line₁, line₂, "there are " ++ toString count.toInt32 ++ " stu \n"] ++ lines)

/-! ## The roll -/

/-- What a program does with the students. -/
inductive Op
  | new (s : Addr) (id : Int32)
  | add (s : Addr) (malloc : Malloc)
  | del (s : Addr)

def Op.exec (fuel : Nat) (students : Hash) : Op → Except Stop Hash
  | new s id => .ok (newStu students s id)
  | add s malloc => addStu fuel malloc students s
  | del s => delStu students s

def Op.Bounded : Op → Prop
  | add _ malloc => UtHash.Bounded malloc
  | _ => True

def Op.Refused : Op → Prop
  | add _ malloc => Refuses malloc
  | _ => False

/-- The students that are allocated, and those that are admitted. -/
structure Roll where
  stu : Addr → Option Int32
  items : List Addr

/-- `malloc` gives an address that is free; what is added is not in the hash, what is deleted is. -/
def roll : Machine Roll Op where
  init := ⟨fun _ => none, []⟩
  exec r
    | .new s id =>
      if r.stu s = none then some { r with stu := Function.update r.stu s id } else none
    | .add s _ =>
      if r.stu s ≠ none ∧ s ∉ r.items then some { r with items := r.items ++ [s] } else none
    | .del s =>
      if s ∈ r.items then some ⟨Function.update r.stu s none, r.items.erase s⟩ else none

/-- What a search for a number may answer. -/
structure Roll.Finds (r : Roll) (id : Int32) (out : Option Addr) : Prop where
  found : ∀ s, out = some s → s ∈ r.items ∧ r.stu s = some id
  missing : out = none → ∀ s ∈ r.items, r.stu s ≠ some id

/-- The hash holds what is on the roll. -/
structure Agrees (students : Hash) (r : Roll) : Prop where
  rep : Rep hashJen students r.items
  live : ∀ s, students.mem.live s = (r.stu s).isSome
  key : ∀ s id, r.stu s = some id → students.mem.key s = idBytes id

/-- No hash, and no student. -/
def start (m : Mem) : Hash := ⟨{ m with live := fun _ => false }, none, none⟩

section
variable {students : Hash} {r r' : Roll} {op : Op} {ops : List Op} {fuel n : Nat} {m : Mem}
  {s : Addr} {id : Int32} {out : Option Addr}

theorem agrees_start : Agrees (start m) roll.init :=
  ⟨Rep.empty, fun _ => rfl, fun _ _ h => by cases h⟩

theorem Agrees.live_of (h : Agrees students r) (hs : s ∈ r.items) : r.stu s ≠ none := by
  have hlive := h.rep.live s hs
  rw [h.live] at hlive
  exact Option.isSome_iff_ne_none.mp hlive

theorem Agrees.new (h : Agrees students r) (hfree : r.stu s = none) (id : Int32) :
    Agrees (newStu students s id) { r with stu := Function.update r.stu s id } := by
  have hout : ∀ a ∈ r.items, a ≠ s := by
    rintro a ha rfl
    exact h.live_of ha hfree
  refine ⟨h.rep.of_mem _ _ (fun a ha => Function.update_of_ne (hout a ha) ..)
    fun a ha => Function.update_of_ne (hout a ha) .., fun a => ?_, fun a id' ha => ?_⟩
  · rcases eq_or_ne a s with rfl | hne
    · simp [newStu]
    · simpa [newStu, Function.update_of_ne hne] using h.live a
  · rcases eq_or_ne a s with rfl | hne
    · cases (Function.update_self (β := fun _ => Option Int32) ..).symm.trans ha
      exact Function.update_self ..
    · exact (Function.update_of_ne hne ..).trans
        (h.key a id' ((Function.update_of_ne hne ..).symm.trans ha))

theorem Agrees.add {malloc : Malloc} (h : Agrees students r) (hs : r.stu s ≠ none)
    (hout : s ∉ r.items) (hb : Bounded malloc) (hf : r.items.length < fuel) :
    Yields (Refuses malloc) (addStu fuel malloc students s) fun students' =>
      Agrees students' { r with items := r.items ++ [s] } ∧
        ((r.items ++ [s]).length < 2 ^ 32 → students.Slim → students'.Slim) := by
  have hlive : students.mem.live s = true := (h.live s).trans (Option.isSome_iff_ne_none.mpr hs)
  refine (hashAdd_yields hb h.rep hlive hout hf).mono (fun h => h)
    fun _ ⟨hrep, hl, hk, hslim⟩ => ⟨?_, hslim⟩
  exact ⟨hrep, fun a => hl ▸ h.live a, fun a id ha => hk ▸ h.key a id ha⟩

theorem delStu_ok {l₁ l₂ : List Addr} (hr : Rep hashJen students (l₁ ++ s :: l₂)) :
    ∃ students', delStu students s = .ok students' ∧ Rep hashJen students' (l₁ ++ l₂) ∧
      students'.mem.live = Function.update students.mem.live s false ∧
      students'.mem.key = students.mem.key ∧
      ((l₁ ++ s :: l₂).length < 2 ^ 32 → students.Slim → students'.Slim) := by
  obtain ⟨students', hdel, hrep, hl, hk, hslim⟩ := hashDelete_ok hr
  have hout : ∀ a ∈ l₁ ++ l₂, a ≠ s := by
    rintro a ha rfl
    exact (List.nodup_cons.mp (List.nodup_middle.mp hr.nodup)).1 ha
  refine ⟨_, ?_, hrep.of_mem (Function.update students'.mem.live s false) _
    (fun a ha => Function.update_of_ne (hout a ha) ..) fun _ _ => rfl, ?_, hk, hslim⟩
  · rw [delStu, hdel, ok_bind, free, Mem.access_ok (hl ▸ hr.live s (by simp))]
    rfl
  · rw [← hl]

theorem Agrees.del (h : Agrees students r) (hs : s ∈ r.items) :
    ∃ students', delStu students s = .ok students' ∧
      Agrees students' ⟨Function.update r.stu s none, r.items.erase s⟩ ∧
        (r.items.length < 2 ^ 32 → students.Slim → students'.Slim) := by
  obtain ⟨l₁, l₂, hitems⟩ := List.append_of_mem hs
  have hnodup := h.rep.nodup
  have hrep := h.rep
  rw [hitems] at hnodup hrep
  have hs₁ : s ∉ l₁ := fun hm =>
    (List.nodup_append.mp hnodup).2.2 s hm s List.mem_cons_self rfl
  obtain ⟨students', hdel, hrep', hl, hk, hslim⟩ := delStu_ok hrep
  refine ⟨students', hdel, ⟨?_, fun a => ?_, fun a id ha => ?_⟩, fun hlt => hslim (hitems ▸ hlt)⟩
  · show Rep hashJen students' (r.items.erase s)
    rw [hitems, List.erase_append_right _ hs₁, List.erase_cons_head]
    exact hrep'
  · rw [hl]
    rcases eq_or_ne a s with rfl | hne
    · simp
    · simpa [Function.update_of_ne hne] using h.live a
  · rcases eq_or_ne a s with rfl | hne
    · simp at ha
    · rw [hk]
      exact h.key a id (by simpa [Function.update_of_ne hne] using ha)

/-- One operation, with room for `n` elements. -/
theorem exec_yields (h : Agrees students r) (hr : roll.exec r op = some r') (hb : op.Bounded)
    (hlen : r.items.length < n) (hf : n ≤ fuel) :
    Yields op.Refused (op.exec fuel students) fun students' =>
      Agrees students' r' ∧ (n < 2 ^ 32 → students.Slim → students'.Slim) := by
  cases op with
  | new s id =>
    obtain ⟨hfree, hr⟩ := Option.ite_none_right_eq_some.mp hr
    obtain rfl := Option.some.inj hr
    exact .ok ⟨h.new hfree id, fun _ hs => hs⟩
  | add s malloc =>
    obtain ⟨⟨hs, hout⟩, hr⟩ := Option.ite_none_right_eq_some.mp hr
    obtain rfl := Option.some.inj hr
    refine (h.add hs hout hb (hlen.trans_le hf)).mono (fun h => h)
      fun _ ⟨h', hslim⟩ => ⟨h', fun hlt => hslim (Nat.lt_of_le_of_lt ?_ hlt)⟩
    exact (List.length_append ..).trans_le hlen
  | del s =>
    obtain ⟨hs, hr⟩ := Option.ite_none_right_eq_some.mp hr
    obtain rfl := Option.some.inj hr
    obtain ⟨students', hdel, h', hslim⟩ := h.del hs
    exact .inl ⟨students', hdel, h', fun hlt => hslim (hlen.trans hlt)⟩

theorem exec_length (hr : roll.exec r op = some r') : r'.items.length ≤ r.items.length + 1 := by
  cases op with
  | new s id =>
    obtain ⟨-, hr⟩ := Option.ite_none_right_eq_some.mp hr
    obtain rfl := Option.some.inj hr
    exact Nat.le_succ _
  | add s malloc =>
    obtain ⟨-, hr⟩ := Option.ite_none_right_eq_some.mp hr
    obtain rfl := Option.some.inj hr
    exact (List.length_append ..).le
  | del s =>
    obtain ⟨-, hr⟩ := Option.ite_none_right_eq_some.mp hr
    obtain rfl := Option.some.inj hr
    exact (List.length_erase_le ..).trans (Nat.le_succ _)

/-- The hash after a run of the program, by induction on its operations. -/
theorem run_yields (h : Agrees students r) (hs : n < 2 ^ 32 → students.Slim)
    (hrun : roll.run r ops = some r') (hb : ∀ op ∈ ops, op.Bounded)
    (hlen : r.items.length + ops.length ≤ n) (hf : n ≤ fuel) :
    Yields (∃ op ∈ ops, op.Refused) (ops.foldlM (Op.exec fuel) students) fun students' =>
      Agrees students' r' ∧ r'.items.length ≤ n ∧ (n < 2 ^ 32 → students'.Slim) := by
  induction ops generalizing students r with
  | nil =>
    cases hrun
    exact .ok ⟨h, hlen, hs⟩
  | cons op ops ih =>
    obtain ⟨r₁, hstep, hrun⟩ := Option.bind_eq_some_iff.mp hrun
    rw [List.length_cons] at hlen
    have hlen₁ := exec_length hstep
    have hop := exec_yields h hstep (hb op List.mem_cons_self) (n := n) (by omega) hf
    rw [List.foldlM_cons]
    refine (hop.mono (fun hr => ⟨op, List.mem_cons_self, hr⟩) fun _ h => h).bind
      fun s₁ ⟨h₁, hs₁⟩ => ?_
    refine (ih h₁ (fun hlt => hs₁ hlt (hs hlt)) hrun
      (fun o ho => hb o (List.mem_cons_of_mem op ho)) (by omega)).mono
      (fun ⟨o, ho, hr⟩ => ⟨o, List.mem_cons_of_mem op ho, hr⟩) fun _ h => h

theorem run_start_yields (hrun : roll.run roll.init ops = some r) (hb : ∀ op ∈ ops, op.Bounded)
    (hf : ops.length ≤ fuel) :
    Yields (∃ op ∈ ops, op.Refused) (ops.foldlM (Op.exec fuel) (start m)) fun students =>
      Agrees students r ∧ r.items.length ≤ fuel ∧ (ops.length < 2 ^ 32 → students.Slim) := by
  refine (run_yields (n := ops.length) agrees_start (fun _ _ h => by cases h) hrun hb
    (Nat.zero_add _).le hf).mono (fun h => h) fun _ ⟨h, hlen, hs⟩ => ⟨h, hlen.trans hf, hs⟩

/-! ## What the program gets -/

theorem Agrees.finds (h : Agrees students r) (hout : Finds students.mem r.items (idBytes id) out) :
    r.Finds id out := by
  have hkey : ∀ s ∈ r.items, ∃ id', r.stu s = some id' ∧ students.mem.key s = idBytes id' := by
    intro s hs
    obtain ⟨id', hid⟩ := Option.ne_none_iff_exists'.mp (h.live_of hs)
    exact ⟨id', hid, h.key s id' hid⟩
  refine ⟨fun s hs => ?_, fun hnone s hs hid => ?_⟩
  · obtain ⟨hmem, heq⟩ := hout.found s hs
    obtain ⟨id', hid, hk⟩ := hkey s hmem
    exact ⟨hmem, hid.trans (congrArg some (idBytes_injective (hk.symm.trans heq)))⟩
  · exact hout.missing hnone s hs (h.key s id hid)

/-- Numbers whose students come into the same one of 32 buckets. -/
def crowd : List Int32 := [0, 1, 4, 21, 39, 57, 117, 125, 167, 217]

def enough : Malloc := fun n => n < 2 ^ 36

/-- A program that admits them, so that the hash expands, deletes the third, admits another one with
the number of the second, and allocates one that it does not admit. -/
def crowding : List Op :=
  (crowd.zipIdx.flatMap fun (id, s) => [.new s id, .add s enough]) ++
    [.del 2, .new 10 1, .add 10 enough, .new 11 5]

def blank : Mem :=
  ⟨fun _ => false, fun _ => [], fun _ => 0, ⟨fun _ => none, fun _ => none⟩,
    ⟨fun _ => none, fun _ => none⟩⟩

def crowded : Roll := (roll.run roll.init crowding).get (by decide +kernel)

theorem run_crowding : roll.run roll.init crowding = some crowded := (Option.some_get _).symm

theorem items_crowded : crowded.items = [0, 1, 3, 4, 5, 6, 7, 8, 9, 10] := by decide +kernel

theorem crowding_bounded : ∀ op ∈ crowding, op.Bounded := by
  have henough : Bounded enough := fun n hn => decide_eq_false (Nat.not_lt.mpr hn)
  intro op hop
  rcases List.mem_append.mp hop with hop | hop
  · obtain ⟨⟨id, s⟩, -, hop⟩ := List.mem_flatMap.mp hop
    rcases List.mem_pair.mp hop with rfl | rfl
    · trivial
    · exact henough
  · simp only [List.mem_cons, List.not_mem_nil, or_false] at hop
    rcases hop with rfl | rfl | rfl | rfl
    · trivial
    · trivial
    · exact henough
    · trivial

theorem yields_crowding {P : Hash → Prop}
    (h : Yields (∃ op ∈ crowding, op.Refused) (crowding.foldlM (Op.exec 24) (start blank)) P) :
    ∃ students, crowding.foldlM (Op.exec 24) (start blank) = .ok students ∧ P students := by
  have hok : (crowding.foldlM (Op.exec 24) (start blank)).toOption.isSome = true := by
    decide +kernel
  rcases h with h | ⟨hfatal, -⟩
  · exact h
  · rw [hfatal] at hok
    cases hok

/-- Whatever a program has done before, a search finds a student of the roll with that number if
there is one, and `HASH_COUNT` is their number. The program ends before only for want of memory. -/
theorem find_and_count (hrun : roll.run roll.init ops = some r) (hb : ∀ op ∈ ops, op.Bounded)
    (hf : ops.length ≤ fuel) :
    Yields (∃ op ∈ ops, op.Refused) (ops.foldlM (Op.exec fuel) (start m)) fun students =>
      (∀ id, ∃ out, findStu fuel students id = .ok out ∧ r.Finds id out) ∧
      hashCount students = .ok (UInt32.ofNat r.items.length) := by
  refine (run_start_yields hrun hb hf).mono (fun h => h)
    fun students ⟨h, hlen, _⟩ => ⟨fun id => ?_, hashCount_ok h.rep⟩
  obtain ⟨out, hfind, hout⟩ := hashFind_ok h.rep hlen (idBytes id)
  exact ⟨out, hfind, h.finds hout⟩

/-- The deleted number is not found any more, and the tenth one is. -/
theorem find_and_count_crowding :
    ∃ students, crowding.foldlM (Op.exec 24) (start blank) = .ok students ∧
      findStu 24 students 4 = .ok none ∧ findStu 24 students 217 = .ok (some 9) ∧
      hashCount students = .ok 10 := by
  obtain ⟨students, hrun, hfind, hcount⟩ := yields_crowding
    (find_and_count run_crowding crowding_bounded (Nat.le_refl 24))
  have hids : ∀ s ∈ crowded.items,
      crowded.stu s ≠ some 4 ∧ (crowded.stu s = some 217 ↔ s = 9) := by decide +kernel
  rw [items_crowded] at hcount
  refine ⟨students, hrun, ?_, ?_, hcount⟩
  · obtain ⟨out, hout, hfinds⟩ := hfind 4
    cases out with
    | none => exact hout
    | some s => exact absurd (hfinds.found s rfl).2 (hids s (hfinds.found s rfl).1).1
  · obtain ⟨out, hout, hfinds⟩ := hfind 217
    cases out with
    | none =>
      have hnine : 9 ∈ crowded.items := by
        rw [items_crowded]
        decide
      exact absurd ((hids 9 hnine).2.mpr rfl) (hfinds.missing rfl 9 hnine)
    | some s =>
      obtain ⟨hs, hid⟩ := hfinds.found s rfl
      exact hout.trans (congrArg (Except.ok ∘ some) ((hids s hs).2.mp hid))

/-- The check that a debug build makes behind every addition and deletion always succeeds. -/
theorem fsck_passes (hrun : roll.run roll.init ops = some r) (hb : ∀ op ∈ ops, op.Bounded)
    (hf : ops.length ≤ fuel) :
    Yields (∃ op ∈ ops, op.Refused) (ops.foldlM (Op.exec fuel) (start m)) fun students =>
      hashFsck fuel students = .ok () :=
  (run_start_yields hrun hb hf).mono (fun h => h) fun _ ⟨h, hlen, _⟩ => hashFsck_ok h.rep hlen

theorem fsck_passes_crowding :
    ∃ students, crowding.foldlM (Op.exec 24) (start blank) = .ok students ∧
      hashFsck 24 students = .ok () :=
  yields_crowding (fsck_passes run_crowding crowding_bounded (Nat.le_refl 24))

/-- As long as the hash expands, the chain of a bucket is no longer than `expand_mult + 1` times the
threshold of ten, or `expand_mult + 1` times the length that was ideal at the last expansion. -/
theorem chains_bounded (hrun : roll.run roll.init ops = some r) (hb : ∀ op ∈ ops, op.Bounded)
    (hf : ops.length ≤ fuel) (hlt : ops.length < 2 ^ 32) :
    Yields (∃ op ∈ ops, op.Refused) (ops.foldlM (Op.exec fuel) (start m)) fun students =>
      ∀ tbl, students.tbl = some tbl → tbl.noexpand = 0 → ∀ b ∈ tbl.buckets,
        b.count.toNat ≤ (b.expandMult.toNat + 1) * max 10 tbl.idealChainMaxlen.toNat :=
  (run_start_yields hrun hb hf).mono (fun h => h) fun _ ⟨_, _, hs⟩ => hs hlt

/-- The hash has expanded, and may expand again. -/
theorem chains_bounded_crowding :
    ∃ students tbl, crowding.foldlM (Op.exec 24) (start blank) = .ok students ∧
      students.tbl = some tbl ∧ tbl.buckets.length = 64 ∧ tbl.noexpand = 0 ∧
      ∀ b ∈ tbl.buckets,
        b.count.toNat ≤ (b.expandMult.toNat + 1) * max 10 tbl.idealChainMaxlen.toNat := by
  have hexpanded : ((crowding.foldlM (Op.exec 24) (start blank)).toOption.bind Hash.tbl).map
      (fun tbl => (tbl.buckets.length, tbl.noexpand)) = some (64, 0) := by decide +kernel
  obtain ⟨students, hrun, hchains⟩ := yields_crowding
    (chains_bounded run_crowding crowding_bounded (Nat.le_refl 24) (by decide))
  rw [hrun] at hexpanded
  obtain ⟨tbl, htbl, hp⟩ := Option.map_eq_some_iff.mp hexpanded
  obtain ⟨hlength, hnoexpand⟩ := Prod.mk.inj hp
  exact ⟨students, tbl, hrun, htbl, hlength, hnoexpand, hchains tbl htbl hnoexpand⟩

/-- The state of the loop while `l` is still in the hash, of the `items` there were. -/
structure Deleting (students₀ : Hash) (items : List Addr) (l : List Addr) (students : Hash) :
    Prop where
  rep : Rep hashJen students l
  suffix : l <:+ items
  live : ∀ s, students.mem.live s = true ↔ students₀.mem.live s = true ∧ (s ∈ items → s ∈ l)

theorem delAll_ok {items : List Addr} (hr : Rep hashJen students items)
    (hf : items.length ≤ fuel) (name : Addr → String) :
    ∃ students', delAll fuel students name =
      .ok (students', items.map fun s => "del stu " ++ name s ++ "\n") ∧
      Deleting students items [] students' := by
  have hstart : Deleting students items items students :=
    ⟨hr, List.suffix_refl items, fun s => ⟨fun h => ⟨h, id⟩, fun h => h.1⟩⟩
  refine hashIter_ok (P := Deleting students items) (fun h => h.rep.ahead) (fun {a l h₁} hP => ?_)
    hstart hr.head hf
  obtain ⟨h₂, hdel, hrep, hl, -, -⟩ := delStu_ok (show Rep hashJen h₁ ([] ++ a :: l) from hP.rep)
  refine ⟨h₂, ?_, hrep, (List.suffix_cons a l).trans hP.suffix, fun s => ?_⟩
  · simp only [Mem.access_ok (hP.rep.live a List.mem_cons_self), ok_bind, hdel, pure_eq]
  · have ha : a ∉ l := (List.nodup_cons.mp hP.rep.nodup).1
    rw [hl]
    rcases eq_or_ne s a with rfl | hne
    · have hmem : s ∈ items := hP.suffix.subset List.mem_cons_self
      simpa using fun _ => ⟨hmem, ha⟩
    · rw [Function.update_of_ne hne, hP.live, List.mem_cons, or_iff_right hne]

/-- The loop of `main`, run on what any program leaves: it prints the students in the order in which
they were added, although each is freed before the loop goes on, and leaves no hash and no element
of it allocated. -/
theorem delAll_prints (hrun : roll.run roll.init ops = some r) (hb : ∀ op ∈ ops, op.Bounded)
    (hf : ops.length ≤ fuel) (name : Addr → String) :
    Yields (∃ op ∈ ops, op.Refused) (ops.foldlM (Op.exec fuel) (start m)) fun students =>
      ∃ students', delAll fuel students name =
          .ok (students', r.items.map fun s => "del stu " ++ name s ++ "\n") ∧
        students'.head = none ∧ students'.tbl = none ∧
        ∀ s, students'.mem.live s = true ↔ r.stu s ≠ none ∧ s ∉ r.items := by
  refine (run_start_yields hrun hb hf).mono (fun h => h) fun students ⟨h, hlen, _⟩ => ?_
  obtain ⟨students', hloop, hdone⟩ := delAll_ok h.rep hlen name
  refine ⟨students', hloop, hdone.rep.head, hdone.rep.tbl.mpr rfl, fun s => ?_⟩
  rw [hdone.live, h.live, Option.isSome_iff_ne_none]
  simp

/-- All the students on the roll are deleted, and the one that was never admitted is left. -/
theorem delAll_prints_crowding :
    ∃ students students', crowding.foldlM (Op.exec 24) (start blank) = .ok students ∧
      delAll 24 students (fun s => if s = 10 then "jack" else "tom") =
        .ok (students', List.replicate 9 "del stu tom\n" ++ ["del stu jack\n"]) ∧
      students'.head = none ∧ students'.tbl = none ∧ students'.mem.live 11 = true ∧
      ∀ s ∈ crowded.items, students'.mem.live s = false := by
  obtain ⟨students, hrun, students', hloop, hhead, htbl, hlive⟩ := yields_crowding
    (delAll_prints run_crowding crowding_bounded (Nat.le_refl 24)
      fun s => if s = 10 then "jack" else "tom")
  have hlines : (crowded.items.map fun s =>
      "del stu " ++ (if s = 10 then "jack" else "tom") ++ "\n") =
      List.replicate 9 "del stu tom\n" ++ ["del stu jack\n"] := by
    rw [items_crowded]
    decide
  refine ⟨students, students', hrun, hlines ▸ hloop, hhead, htbl, (hlive 11).mpr ?_, ?_⟩
  · decide +kernel
  · intro s hs
    exact Bool.eq_false_iff.mpr fun h => ((hlive s).mp h).2 hs

theorem printStu_ok (h : Agrees students r) (name : Addr → String) (text : String)
    (hs : s ∈ r.items) (hid : r.stu s = some id)
    (huniq : ∀ s' ∈ r.items, r.stu s' = some id → s' = s) (hf : r.items.length ≤ fuel) :
    printStu fuel students name text id = .ok (text ++ name s ++ "\n") := by
  obtain ⟨out, hfind, hout⟩ := hashFind_ok h.rep hf (idBytes id)
  have hout := h.finds hout
  obtain ⟨s', rfl⟩ := Option.ne_none_iff_exists'.mp fun hc => hout.missing hc s hs hid
  obtain rfl := huniq s' (hout.found s' rfl).1 (hout.found s' rfl).2
  rw [printStu, findStu, hfind, ok_bind]
  simp only [deref, ok_bind, Mem.access_ok (h.rep.live s' hs), pure_eq]

/-- `main` prints its two students and their number, deletes them and leaves no hash. -/
theorem main_yields {malloc : Malloc} {tom jack : Addr} (hm : Bounded malloc) (hne : jack ≠ tom)
    (hf : 2 ≤ fuel) :
    Yields (Refuses malloc) (main fuel malloc (start m) tom jack) fun r =>
      r.2 = ["id 1 stu is tom\n", "id 2 stu is jack\n", "there are 2 stu \n", "del stu tom\n",
        "del stu jack\n"] ∧ r.1.head = none := by
  have h₀ : Agrees (start m) ⟨fun _ => none, []⟩ := agrees_start
  have h₁ := h₀.new (s := tom) rfl 1
  rw [main]
  refine (h₁.add (by simp) List.not_mem_nil hm (Nat.zero_lt_of_lt hf)).bind fun s₁ ⟨h₁, _⟩ => ?_
  let name := fun s => if s = tom then "tom" else "jack"
  rw [printStu_ok (s := tom) h₁ name "id 1 stu is " (by simp) (by simp) (by simp)
    (Nat.le_of_succ_le hf), ok_bind]
  have h₂ := h₁.new (s := jack) (by simp [hne]) 2
  refine (h₂.add (by simp) (by simp [hne]) hm hf).bind fun s₂ ⟨h₂, _⟩ => ?_
  obtain ⟨s₃, hloop, hdone⟩ := delAll_ok h₂.rep hf name
  rw [printStu_ok (s := jack) h₂ name "id 2 stu is " (by simp) (by simp)
    (by simp [Function.update_of_ne hne.symm]) hf, ok_bind, hashCount_ok h₂.rep, ok_bind, hloop,
    ok_bind]
  have hcount : "there are " ++ toString (2 : Int32) ++ " stu \n" = "there are 2 stu \n" := by
    decide
  exact .ok ⟨by simp [name, hne, hcount], hdone.rep.head⟩

end

end KoScripts.DataStruct.Students
