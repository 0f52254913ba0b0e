import Mathlib.Data.List.Nodup
import Mathlib.Data.List.Perm.Basic
import KoScripts.DataStruct.UtHash
import KoScripts.Lib.Threads

/-! # The buckets of a hash

The chain of every bucket links the elements with its index, in any order, and the counter of the
bucket is their number as an `unsigned` holds it. Adding an element, deleting one and doubling the
number of buckets keep this. -/

namespace KoScripts.DataStruct.UtHash
open Lib

/-! ## Buckets -/

/-- The bucket `b` holds the elements `elems`, in the order `chain`. -/
structure Bucket (hh : Links Addr) (b : UTHashBucket) (elems chain : List Addr) : Prop where
  head : b.hhHead = chain.head?
  count : b.count = UInt32.ofNat chain.length
  linked : hh.Repr chain
  perm : chain.Perm elems

/-- Every bucket holds the elements with its index. -/
def Buckets (hh : Links Addr) (bs : List UTHashBucket) (idx : Addr → Nat) (items : List Addr) :
    Prop :=
  ∀ i b, bs[i]? = some b → ∃ chain, Bucket hh b (items.filter (idx · == i)) chain

section
variable {hh hh' : Links Addr} {bs : List UTHashBucket} {idx idx' : Addr → Nat}
  {b b' : UTHashBucket} {items items' l₁ l₂ chain : List Addr} {a : Addr} {i n : Nat}
  {mult : UInt32}

theorem Bucket.mem (h : Bucket hh b (items.filter (idx · == i)) chain) (ha : a ∈ chain) :
    a ∈ items ∧ idx a = i := by
  have ha := List.mem_filter.mp (h.perm.mem_iff.mp ha)
  exact ⟨ha.1, eq_of_beq ha.2⟩

theorem Bucket.nodup (h : Bucket hh b (items.filter (idx · == i)) chain) (hn : items.Nodup) :
    chain.Nodup := h.perm.nodup_iff.mpr (hn.filter _)

theorem Buckets.replicate : Buckets hh (List.replicate n ⟨none, 0, 0⟩) idx [] := by
  intro i b hi
  cases List.eq_of_mem_replicate (List.mem_of_getElem? hi)
  exact ⟨[], rfl, rfl, trivial, List.Perm.nil⟩

theorem Buckets.congr (h : Buckets hh bs idx items) (hs : ∀ a ∈ items, hh.SameAt hh' a)
    (hi : ∀ a ∈ items, idx' a = idx a) : Buckets hh' bs idx' items := by
  intro i b hb
  obtain ⟨chain, hc⟩ := h i b hb
  refine ⟨chain, hc.head, hc.count, hc.linked.congr fun a ha => hs a (hc.mem ha).1, ?_⟩
  rw [List.filter_congr fun a ha => by rw [hi a ha]]
  exact hc.perm

theorem Buckets.perm (h : Buckets hh bs idx items) (hp : items.Perm items') :
    Buckets hh bs idx items' := by
  intro i b hb
  obtain ⟨chain, hc⟩ := h i b hb
  exact ⟨chain, hc.head, hc.count, hc.linked, hc.perm.trans (hp.filter _)⟩

/-- Adding `a` in front of the chain of its bucket. -/
theorem Buckets.push (h : Buckets hh bs idx items) (hn : items.Nodup) (ha : a ∉ items)
    (hb : bs[idx a]? = some b) :
    Buckets (hh.push b.hhHead a) (bs.set (idx a) ⟨some a, b.count + 1, mult⟩) idx
      (items ++ [a]) := by
  obtain ⟨chain, hc⟩ := h _ _ hb
  intro i b' hi
  rcases getElem?_set_self_or hi with ⟨rfl, rfl⟩ | ⟨hne, hi⟩
  · refine ⟨a :: chain, rfl, ?_, ?_, ?_⟩
    · rw [List.length_cons, UInt32.ofNat_add, ← hc.count]
      rfl
    · rw [hc.head]
      exact hc.linked.push (hc.nodup hn) fun hm => ha (hc.mem hm).1
    · rw [List.filter_append, List.filter_singleton, beq_self_eq_true]
      exact (hc.perm.cons a).trans (List.perm_append_singleton a _).symm
  · obtain ⟨chain', hc'⟩ := h i b' hi
    refine ⟨chain', hc'.head, hc'.count, hc'.linked.congr fun c hm => ?_, ?_⟩
    · apply Links.sameAt_push
      · rintro rfl
        exact ha (hc'.mem hm).1
      · rw [hc.head]
        exact Links.head?_ne_of_notMem fun hm' =>
          hne ((hc'.mem hm).2.symm.trans (hc.mem hm').2)
    · rw [List.filter_append, List.filter_singleton, beq_false_of_ne (Ne.symm hne)]
      exact hc'.perm.trans (List.append_nil _ ▸ List.Perm.refl _)

/-- Taking `a` out of the chain of its bucket. -/
theorem Buckets.unlink (h : Buckets hh bs idx (l₁ ++ a :: l₂)) (hn : (l₁ ++ a :: l₂).Nodup)
    (hb : bs[idx a]? = some b) :
    Buckets (hh.unlink a)
      (bs.set (idx a)
        ⟨if b.hhHead = some a then hh.next a else b.hhHead, b.count - 1, b.expandMult⟩)
      idx (l₁ ++ l₂) := by
  obtain ⟨chain, hc⟩ := h _ _ hb
  have hmem : a ∈ chain := hc.perm.mem_iff.mpr <|
    List.mem_filter.mpr ⟨List.mem_append_right _ List.mem_cons_self, beq_self_eq_true _⟩
  obtain ⟨c₁, c₂, rfl⟩ := List.append_of_mem hmem
  have hnd := hc.nodup hn
  intro i b' hi
  rcases getElem?_set_self_or hi with ⟨rfl, rfl⟩ | ⟨hne, hi⟩
  · refine ⟨c₁ ++ c₂, ?_, ?_, hc.linked.unlink hnd, ?_⟩
    · show (if b.hhHead = some a then hh.next a else b.hhHead) = _
      rw [hc.head, hc.linked.next_eq]
      cases c₁ with
      | nil => exact if_pos rfl
      | cons c c₁ =>
        refine if_neg fun he => ?_
        cases he
        exact (List.nodup_cons.mp hnd).1 (List.mem_append_right _ List.mem_cons_self)
    · show b.count - 1 = _
      rw [hc.count, List.length_append, List.length_append, List.length_cons, ← Nat.add_assoc,
        UInt32.ofNat_add _ 1]
      exact UInt32.add_sub_cancel ..
    · have hp := hc.perm
      rw [List.filter_append, List.filter_cons_of_pos (by simp)] at hp
      rw [List.filter_append]
      exact ((List.perm_middle.symm.trans hp).trans List.perm_middle).cons_inv
  · obtain ⟨chain', hc'⟩ := h i b' hi
    refine ⟨chain', hc'.head, hc'.count, hc'.linked.congr fun c hm => ?_, ?_⟩
    · exact hc.linked.sameAt_unlink fun hm' =>
        hne ((hc'.mem hm).2.symm.trans (hc.mem hm').2)
    · have hp := hc'.perm
      rw [List.filter_append, List.filter_cons_of_neg (by simpa using Ne.symm hne)] at hp
      rw [List.filter_append]
      exact hp

end

/-! ## How long the chains get -/

/-- A bucket that an expansion fills gets no longer than `expand_mult + 1` ideal chains. -/
structure Filled (ideal : UInt32) (b : UTHashBucket) : Prop where
  mult_le : b.expandMult.toNat ≤ b.count.toNat
  count_le : b.count.toNat ≤ (b.expandMult.toNat + 1) * ideal.toNat

theorem toNat_succ {n : UInt32} (h : n.toNat + 1 < 2 ^ 32) : (n + 1).toNat = n.toNat + 1 := by
  rw [UInt32.toNat_add]
  exact Nat.mod_eq_of_lt h

theorem toNat_mul_two {n : UInt32} (h : n.toNat * 2 < 2 ^ 32) : (n * 2).toNat = n.toNat * 2 := by
  rw [UInt32.toNat_mul]
  exact Nat.mod_eq_of_lt h

theorem toNat_mul_le {n k : UInt32} : (n * k).toNat ≤ n.toNat * k.toNat := by
  rw [UInt32.toNat_mul]
  exact Nat.mod_le ..

theorem Filled.next {ideal : UInt32} {b : UTHashBucket} (h : Filled ideal b)
    (hi : 1 ≤ ideal.toNat) (hc : b.count.toNat + 1 < 2 ^ 32) (o : Option Addr) :
    Filled ideal ⟨o, b.count + 1, nextMult ideal b⟩ := by
  have hcount := toNat_succ hc
  have hmult := toNat_succ (Nat.lt_of_le_of_lt (Nat.succ_le_succ h.mult_le) hc)
  have hle := h.count_le
  rw [nextMult]
  split
  case isTrue =>
    constructor
    · show (b.expandMult + 1).toNat ≤ (b.count + 1).toNat
      rw [hcount, hmult]
      exact Nat.succ_le_succ h.mult_le
    · show (b.count + 1).toNat ≤ ((b.expandMult + 1).toNat + 1) * ideal.toNat
      rw [hcount, hmult, Nat.succ_mul (_ + 1)]
      omega
  case isFalse hno =>
    constructor
    · show b.expandMult.toNat ≤ (b.count + 1).toNat
      rw [hcount]
      exact Nat.le_succ_of_le h.mult_le
    · show (b.count + 1).toNat ≤ (b.expandMult.toNat + 1) * ideal.toNat
      rw [Nat.succ_mul]
      rcases not_and_or.mp hno with hno | hno
      · exact (UInt32.le_iff_toNat_le.mp (UInt32.not_lt.mp hno)).trans (Nat.le_add_left ..)
      · exact ((UInt32.le_iff_toNat_le.mp (UInt32.not_lt.mp hno)).trans toNat_mul_le).trans
          (Nat.le_add_right ..)

theorem ceil_div {n k : Nat} (hk : 0 < k) :
    (n + (k - 1)) / k = n / k + if n % k ≠ 0 then 1 else 0 := by
  have hn := Nat.div_add_mod n k
  have hlt := Nat.mod_lt n hk
  split
  case isTrue hr =>
    rw [show n + (k - 1) = (n % k - 1) + k * (n / k + 1) by rw [Nat.mul_succ]; omega,
      Nat.add_mul_div_left _ _ hk, Nat.div_eq_of_lt (by omega), Nat.zero_add]
  case isFalse hr =>
    rw [show n + (k - 1) = (k - 1) + k * (n / k) by omega, Nat.add_mul_div_left _ _ hk,
      Nat.div_eq_of_lt (by omega), Nat.zero_add]
    rfl

/-- `ceil(n/b)` for the doubled number `b` of buckets. -/
theorem idealMaxlen_eq {tbl : UTHashTable}
    (hn : tbl.numBuckets.toNat = 2 ^ tbl.log2NumBuckets.toNat)
    (hlt : tbl.numBuckets.toNat * 2 < 2 ^ 32) :
    (idealMaxlen tbl).toNat =
      (tbl.numItems.toNat + (tbl.numBuckets.toNat * 2 - 1)) / (tbl.numBuckets.toNat * 2) := by
  have hpow : tbl.numBuckets.toNat * 2 = 2 ^ (tbl.log2NumBuckets.toNat + 1) := by
    rw [hn, Nat.pow_succ]
  have hk : tbl.log2NumBuckets.toNat + 1 < 32 := by
    rw [hpow] at hlt
    exact (Nat.pow_lt_pow_iff_right (by omega)).mp hlt
  have hlog : (tbl.log2NumBuckets + 1).toNat = tbl.log2NumBuckets.toNat + 1 :=
    toNat_succ (by omega)
  have hnum : (tbl.numBuckets * 2).toNat = tbl.numBuckets.toNat * 2 := toNat_mul_two hlt
  have hpos : 2 ≤ tbl.numBuckets.toNat * 2 := by
    have := Nat.two_pow_pos tbl.log2NumBuckets.toNat
    omega
  have hle : (1 : UInt32) ≤ tbl.numBuckets * 2 :=
    UInt32.le_iff_toNat_le.mpr (hnum ▸ Nat.le_of_succ_le hpos)
  have hmask : (tbl.numBuckets * 2 - 1).toNat = 2 ^ (tbl.log2NumBuckets.toNat + 1) - 1 := by
    rw [UInt32.toNat_sub_of_le _ _ hle, hnum, hpow]
    rfl
  have hshift : (tbl.numItems >>> (tbl.log2NumBuckets + 1)).toNat =
      tbl.numItems.toNat / (tbl.numBuckets.toNat * 2) := by
    rw [UInt32.toNat_shiftRight, hlog, Nat.mod_eq_of_lt hk, Nat.shiftRight_eq_div_pow, hpow]
  have hand : (tbl.numItems &&& (tbl.numBuckets * 2 - 1)).toNat =
      tbl.numItems.toNat % (tbl.numBuckets.toNat * 2) := by
    rw [UInt32.toNat_and, hmask, Nat.and_two_pow_sub_one_eq_mod, hpow]
  have hsmall : tbl.numItems.toNat / (tbl.numBuckets.toNat * 2) + 1 < 2 ^ 32 := by
    have := Nat.div_le_div_left hpos Nat.two_pos (a := tbl.numItems.toNat)
    have := tbl.numItems.toNat_lt
    omega
  rw [ceil_div (by omega), ← hshift, idealMaxlen]
  by_cases hz : tbl.numItems.toNat % (tbl.numBuckets.toNat * 2) = 0
  · have hz' : tbl.numItems &&& (tbl.numBuckets * 2 - 1) = 0 :=
      UInt32.toNat_inj.mp (hand.trans hz)
    rw [if_neg (not_not_intro hz'), if_neg (not_not_intro hz)]
    rw [UInt32.add_zero]
    rfl
  · have hz' : tbl.numItems &&& (tbl.numBuckets * 2 - 1) ≠ 0 := fun hc =>
      hz (hand.symm.trans (congrArg UInt32.toNat hc))
    rw [if_pos hz', if_pos hz]
    exact toNat_succ (hshift ▸ hsmall)
/-- The chains while the table still expands: none is longer than `expand_mult + 1` times the
threshold, or the length that was ideal at the last expansion. -/
def Slim (tbl : UTHashTable) : Prop :=
  tbl.noexpand = 0 → ∀ b ∈ tbl.buckets, b.count.toNat ≤ (b.expandMult.toNat + 1) *
    max hashBktCapacityThresh.toNat tbl.idealChainMaxlen.toNat

/-! ## Expanding -/

/-- The state of an expansion to `n` buckets that began in the memory `m`, when the elements `done`
have been moved. -/
structure Moved (m : Mem) (n ideal : UInt32) (done : List Addr)
    (s : Mem × List UTHashBucket × UInt32) : Prop where
  mem : s.1 = { m with hh := s.1.hh }
  length : s.2.1.length = n.toNat
  buckets : Buckets s.1.hh s.2.1 (fun a => hashToBkt (m.hashv a) n) done
  same : ∀ a ∉ done, m.hh.SameAt s.1.hh a
  filled : 1 ≤ ideal.toNat → done.length < 2 ^ 32 → ∀ b ∈ s.2.1, Filled ideal b

section
variable {m : Mem} {n num ideal ni : UInt32} {items done rest : List Addr} {a : Addr}
  {b : UTHashBucket} {nb : List UTHashBucket} {s : Mem × List UTHashBucket × UInt32}
  {p : Option Addr} {fuel i : Nat} {tbl : UTHashTable} {idx : Addr → Nat}

theorem Buckets.head_mem {hh : Links Addr} (h : Buckets hh nb idx items) (hb : nb[i]? = some b)
    (ha : b.hhHead = some a) : a ∈ items ∧ idx a = i := by
  obtain ⟨chain, hc⟩ := h i b hb
  exact hc.mem (List.mem_of_mem_head? (Option.mem_def.mpr (hc.head ▸ ha)))

theorem Buckets.count_eq {hh : Links Addr} (h : Buckets hh nb idx items) (hb : nb[i]? = some b)
    (hlt : items.length < 2 ^ 32) :
    b.count.toNat = (items.filter (idx · == i)).length := by
  obtain ⟨chain, hc⟩ := h i b hb
  rw [hc.count, hc.perm.length_eq]
  exact UInt32.toNat_ofNat_of_lt' ((List.length_filter_le ..).trans_lt hlt)

theorem Moved.perm (h : Moved m n ideal done s) (hp : done.Perm items) :
    Moved m n ideal items s :=
  ⟨h.mem, h.length, h.buckets.perm hp, fun a ha => h.same a fun hm => ha (hp.mem_iff.mp hm),
    hp.length_eq ▸ h.filled⟩

theorem Moved.push {hh : Links Addr} (h : Moved m n ideal done ({ m with hh }, nb, ni))
    (hn : done.Nodup) (ha : a ∉ done) (hb : nb[hashToBkt (m.hashv a) n]? = some b) :
    Moved m n ideal (done ++ [a]) ({ m with hh := hh.push b.hhHead a },
      nb.set (hashToBkt (m.hashv a) n) ⟨some a, b.count + 1, nextMult ideal b⟩, num) := by
  refine ⟨rfl, (List.length_set ..).trans h.length, h.buckets.push hn ha hb, fun c hc => ?_,
    fun hi hlt b' hb' => ?_⟩
  · rw [List.mem_append, List.mem_singleton, not_or] at hc
    apply (h.same c hc.1).trans
    apply Links.sameAt_push hc.2
    exact fun hm => hc.1 (h.buckets.head_mem hb hm).1
  · have hlt : done.length + 1 < 2 ^ 32 := (List.length_append ..).symm.trans_lt hlt
    have hfilled := h.filled hi (Nat.lt_of_succ_lt hlt)
    rcases List.mem_or_eq_of_mem_set hb' with hb' | rfl
    · exact hfilled b' hb'
    · have hle : b.count.toNat ≤ done.length :=
        (h.buckets.count_eq hb (Nat.lt_of_succ_lt hlt)).trans_le (List.length_filter_le ..)
      exact (hfilled b (List.mem_of_getElem? hb)).next hi (by omega) _

/-- The loop over the chain of one old bucket, by induction on what is left of the chain. -/
theorem expandChain_spec (h : Moved m (num * 2) ideal done s) (hpos : 0 < (num * 2).toNat)
    (hlive : ∀ a ∈ done ++ rest, m.live a = true) (hn : (done ++ rest).Nodup)
    (hrest : m.hh.Seg p rest none) (hf : rest.length ≤ fuel) :
    ∃ s', expandChain num ideal fuel rest.head? s = .ok s' ∧
      Moved m (num * 2) ideal (done ++ rest) s' := by
  induction rest generalizing s done p fuel with
  | nil =>
    refine ⟨s, ?_, (List.append_nil done).symm ▸ h⟩
    rw [List.head?_nil, expandChain]
  | cons a rest ih =>
    obtain ⟨fuel, rfl⟩ := Nat.exists_eq_add_of_le' (Nat.le_of_add_left_le hf)
    obtain ⟨m', nb, ni⟩ := s
    obtain ⟨hh, rfl⟩ : ∃ hh, m' = { m with hh } := ⟨_, h.mem⟩
    rw [List.append_cons] at hlive hn ⊢
    have ha : a ∉ done := fun hm => (List.nodup_append.mp (List.nodup_append.mp hn).1).2.2 a hm
      a List.mem_cons_self rfl
    obtain ⟨b, hb⟩ : ∃ b, nb[hashToBkt (m.hashv a) (num * 2)]? = some b :=
      ⟨_, List.getElem?_eq_getElem (h.length ▸ hashToBkt_lt hpos)⟩
    have hla : m.live a = true := hlive a (by simp)
    have hlb : ∀ c, b.hhHead = some c → m.live c = true := fun c hc =>
      hlive c (List.mem_append_left _ (List.mem_append_left _ (h.buckets.head_mem hb hc).1))
    have hnext : hh.next a = rest.head? := by
      rw [(h.same a ha).next, hrest.2.1, Option.or_none]
    have hwrite := Mem.writeOf_setHhPrev (v := some a)
      (m := { m with hh := (hh.setPrev a none).setNext a b.hhHead }) hlb
    rw [List.head?_cons, expandChain]
    simp only [Mem.access_ok, hla, ok_bind, bucket_ok hb, Mem.setHhPrev_ok, Mem.setHhNext_ok,
      hwrite, hnext]
    exact ih (h.push (List.nodup_append.mp (List.nodup_append.mp hn).1).1 ha hb) hlive hn
      hrest.2.2 (Nat.le_of_succ_le_succ hf)

theorem filter_lt_succ (items : List Addr) (idx : Addr → Nat) (i : Nat) :
    (items.filter (idx · < i) ++ items.filter (idx · == i)).Perm
      (items.filter (idx · < i + 1)) := by
  induction items with
  | nil => exact List.Perm.nil
  | cons a items ih =>
    rcases Nat.lt_trichotomy (idx a) i with hlt | heq | hgt
    · rw [List.filter_cons_of_pos (by simpa using hlt), List.filter_cons_of_neg (by simp; omega),
        List.filter_cons_of_pos (by simp; omega)]
      exact ih.cons a
    · rw [List.filter_cons_of_neg (by simp; omega), List.filter_cons_of_pos (by simpa using heq),
        List.filter_cons_of_pos (by simp; omega)]
      exact List.perm_middle.trans (ih.cons a)
    · rw [List.filter_cons_of_neg (by simp; omega), List.filter_cons_of_neg (by simp; omega),
        List.filter_cons_of_neg (by simp; omega)]
      exact ih

/-- The buckets of `tbl` hold `items`, and their number is a power of two. -/
structure Table (m : Mem) (tbl : UTHashTable) (items : List Addr) : Prop where
  num_buckets : tbl.numBuckets.toNat = 2 ^ tbl.log2NumBuckets.toNat
  size : tbl.buckets.length = tbl.numBuckets.toNat
  buckets : Buckets m.hh tbl.buckets (fun a => hashToBkt (m.hashv a) tbl.numBuckets) items

/-- What a macro on the buckets leaves, of the rest of the memory and of the table. -/
structure After (m : Mem) (tbl : UTHashTable) (items : List Addr) (r : Mem × UTHashTable) :
    Prop where
  mem : r.1 = { m with hh := r.1.hh }
  table : Table r.1 r.2 items
  tail : r.2.tail = tbl.tail
  num_items : r.2.numItems = tbl.numItems

theorem Table.pos (h : Table m tbl items) : 0 < tbl.numBuckets.toNat :=
  h.num_buckets ▸ Nat.two_pow_pos _

theorem Table.bucket_at (h : Table m tbl items) (v : UInt32) :
    ∃ b, tbl.buckets[hashToBkt v tbl.numBuckets]? = some b :=
  ⟨_, List.getElem?_eq_getElem (h.size ▸ hashToBkt_lt h.pos)⟩

/-- The loop over the old buckets: after `i` of them, their elements are in the new ones. -/
theorem expandBuckets_spec (h : Table m tbl items) (hlive : ∀ a ∈ items, m.live a = true)
    (hn : items.Nodup) (hf : items.length ≤ fuel) (hpos : 0 < (tbl.numBuckets * 2).toNat)
    (h₀ : Moved m (tbl.numBuckets * 2) ideal [] s) (hi : i ≤ tbl.numBuckets.toNat) :
    ∃ s', (List.range i).foldlM (expandBucket fuel tbl ideal) s = .ok s' ∧
      Moved m (tbl.numBuckets * 2) ideal
        (items.filter fun a => hashToBkt (m.hashv a) tbl.numBuckets < i) s' := by
  induction i with
  | zero => exact ⟨s, rfl, by simpa using h₀⟩
  | succ i ih =>
    obtain ⟨s', hs', hmoved⟩ := ih (Nat.le_of_succ_le hi)
    have hb := List.getElem?_eq_getElem (l := tbl.buckets) (h.size.symm ▸ hi : i < _)
    obtain ⟨chain, hc⟩ := h.buckets i _ hb
    have hperm := (hc.perm.append_left _).trans
      (filter_lt_succ items (fun a => hashToBkt (m.hashv a) tbl.numBuckets) i)
    have hle : chain.length ≤ fuel :=
      (hc.perm.length_eq.trans_le (List.length_filter_le ..)).trans hf
    obtain ⟨s'', hs'', hmoved⟩ := expandChain_spec hmoved hpos
      (fun a ha => hlive a (List.mem_filter.mp (hperm.mem_iff.mp ha)).1)
      (hperm.nodup_iff.mpr (hn.filter _)) hc.linked hle
    refine ⟨s'', ?_, hmoved.perm hperm⟩
    rw [List.range_succ, List.foldlM_append, hs', ok_bind, List.foldlM_cons, expandBucket,
      bucket_ok hb, ok_bind, hc.head, hs'']
    rfl

end

/-! ## What the macros yield -/

/-- The macro ends in a state with `P`, or the program is over for want of memory, `refused`. -/
def Yields {α : Type} (refused : Prop) (r : Except Stop α) (P : α → Prop) : Prop :=
  (∃ x, r = .ok x ∧ P x) ∨ r = .error .fatal ∧ refused

def Refuses (malloc : Malloc) : Prop := ∃ n, malloc n = false

/-- No block of 64 GiB is to be had, so that the number of buckets fits into an `unsigned`. -/
def Bounded (malloc : Malloc) : Prop := ∀ n, 2 ^ 36 ≤ n → malloc n = false

section
variable {α β : Type} {malloc : Malloc} {r : Except Stop α} {f : α → Except Stop β} {R : Prop}
  {P : α → Prop} {Q : β → Prop} {m : Mem} {tbl : UTHashTable} {items : List Addr} {fuel : Nat}

theorem Yields.ok {x : α} (h : P x) : Yields R (.ok x) P := .inl ⟨x, rfl, h⟩

theorem Yields.bind (h : Yields R r P) (hf : ∀ x, P x → Yields R (f x) Q) :
    Yields R (r >>= f) Q := by
  rcases h with ⟨x, rfl, hx⟩ | ⟨rfl, hn⟩
  · exact hf x hx
  · exact .inr ⟨rfl, hn⟩

theorem Yields.mono {R' : Prop} {P' : α → Prop} (h : Yields R r P) (hR : R → R')
    (hP : ∀ x, P x → P' x) : Yields R' r P' :=
  h.imp (fun ⟨x, hr, hx⟩ => ⟨x, hr, hP x hx⟩) (And.imp_right hR)

theorem hashExpandBuckets_yields (hm : Bounded malloc) (h : Table m tbl items)
    (hlive : ∀ a ∈ items, m.live a = true) (hn : items.Nodup) (hf : items.length ≤ fuel) :
    Yields (Refuses malloc) (hashExpandBuckets fuel malloc m tbl) fun r =>
      After m tbl items r ∧ (tbl.numItems = UInt32.ofNat items.length → items ≠ [] →
        items.length < 2 ^ 32 → Slim r.2) := by
  rw [hashExpandBuckets]
  split
  case isFalse hno => exact .inr ⟨rfl, _, Bool.eq_false_iff.mpr hno⟩
  case isTrue hyes =>
    have hlt : tbl.numBuckets.toNat * 2 < 2 ^ 32 := by
      by_contra hge
      refine Bool.eq_false_iff.mp (hm _ ?_) hyes
      rw [sizeofBucket]
      omega
    have hlog : tbl.log2NumBuckets.toNat + 1 < 2 ^ 32 := by
      have := h.num_buckets ▸ Nat.lt_two_pow_self (n := tbl.log2NumBuckets.toNat)
      omega
    have hnum := toNat_mul_two hlt
    have hstart : Moved m (tbl.numBuckets * 2) (idealMaxlen tbl) []
        (m, List.replicate (tbl.numBuckets.toNat * 2) ⟨none, 0, 0⟩, 0) :=
      ⟨rfl, by rw [hnum, List.length_replicate], Buckets.replicate, fun _ _ => .refl,
        fun _ _ b hb => List.eq_of_mem_replicate hb ▸ ⟨Nat.le_refl _, Nat.zero_le _⟩⟩
    obtain ⟨⟨m', nb, ni⟩, hs', hmoved⟩ := expandBuckets_spec h hlive hn hf
      (hnum ▸ Nat.mul_pos h.pos Nat.two_pos) hstart (Nat.le_refl _)
    rw [List.filter_eq_self.mpr fun a _ => decide_eq_true (hashToBkt_lt h.pos)] at hmoved
    obtain ⟨hh, rfl⟩ : ∃ hh, m' = { m with hh } := ⟨_, hmoved.mem⟩
    simp only [hs', ok_bind]
    refine .ok ⟨⟨rfl, ⟨?_, hmoved.length, hmoved.buckets⟩, rfl, rfl⟩, fun hni hne hlt₁ _ b hb => ?_⟩
    · show (tbl.numBuckets * 2).toNat = 2 ^ (tbl.log2NumBuckets + 1).toNat
      rw [hnum, h.num_buckets, toNat_succ hlog, Nat.pow_succ]
    · have hideal : 1 ≤ (idealMaxlen tbl).toNat := by
        rw [idealMaxlen_eq h.num_buckets hlt, hni, UInt32.toNat_ofNat_of_lt' hlt₁]
        have hpos := h.pos
        have := List.length_pos_iff.mpr hne
        exact Nat.div_pos (by omega) (by omega)
      exact (hmoved.filled hideal hlt₁ b hb).count_le.trans
        (Nat.mul_le_mul_left _ (Nat.le_max_right ..))

/-- `a` is put into the bucket of its hash value, and the table expanded if need be. -/
theorem hashAddToBkt_yields {a : Addr} (hm : Bounded malloc) (h : Table m tbl items)
    (hlive : ∀ b ∈ items ++ [a], m.live b = true) (hn : (items ++ [a]).Nodup)
    (hf : (items ++ [a]).length ≤ fuel) :
    Yields (Refuses malloc)
      (hashAddToBkt fuel malloc m tbl (hashToBkt (m.hashv a) tbl.numBuckets) a)
      fun r => After m tbl (items ++ [a]) r ∧
        (tbl.numItems = UInt32.ofNat (items ++ [a]).length → (items ++ [a]).length < 2 ^ 32 →
          Slim tbl → Slim r.2) := by
  obtain ⟨hitems, -, hdis⟩ := List.nodup_append.mp hn
  have ha : a ∉ items := fun hm => hdis a hm a List.mem_cons_self rfl
  obtain ⟨b, hb⟩ := h.bucket_at (m.hashv a)
  have hla : m.live a = true := hlive a (by simp)
  have hlb : ∀ c, b.hhHead = some c → m.live c = true := fun c hc =>
    hlive c (List.mem_append_left _ (h.buckets.head_mem hb hc).1)
  have hwrite := Mem.writeOf_setHhPrev (v := some a)
    (m := { m with hh := (m.hh.setNext a b.hhHead).setPrev a none }) hlb
  have hpush : Table { m with hh := m.hh.push b.hhHead a } { tbl with
      buckets := tbl.buckets.set (hashToBkt (m.hashv a) tbl.numBuckets)
        ⟨some a, b.count + 1, b.expandMult⟩ } (items ++ [a]) :=
    ⟨h.num_buckets, (List.length_set ..).trans h.size, h.buckets.push hitems ha hb⟩
  rw [hashAddToBkt]
  simp only [bucket_ok hb, ok_bind, Mem.setHhNext_ok, Mem.setHhPrev_ok, hla, hwrite]
  split
  case isTrue =>
    refine (hashExpandBuckets_yields hm hpush hlive hn hf).mono (fun h => h) fun r ⟨hr, hs⟩ => ?_
    exact ⟨⟨hr.mem, hr.table, hr.tail, hr.num_items⟩, fun hni hlt _ => hs hni (by simp) hlt⟩
  case isFalse hno =>
    refine .ok ⟨⟨rfl, hpush, rfl, rfl⟩, fun _ _ hslim hex b' hb' => ?_⟩
    rcases List.mem_or_eq_of_mem_set hb' with hb' | rfl
    · exact hslim hex b' hb'
    · -- The bucket has not reached its threshold.
      have hlt : (b.count + 1).toNat < ((b.expandMult + 1) * hashBktCapacityThresh).toNat :=
        UInt32.lt_iff_toNat_lt.mp (UInt32.not_le.mp fun hge => hno ⟨hge, hex⟩)
      have hle : (b.expandMult + 1).toNat ≤ b.expandMult.toNat + 1 :=
        (UInt32.toNat_add ..).trans_le (Nat.mod_le ..)
      exact hlt.le.trans <| toNat_mul_le.trans <|
        (Nat.mul_le_mul_right _ hle).trans (Nat.mul_le_mul_left _ (Nat.le_max_left ..))

/-- `a` is taken out of its bucket. -/
theorem hashDelInBkt_ok {l₁ l₂ : List Addr} {a : Addr} (h : Table m tbl (l₁ ++ a :: l₂))
    (hlive : ∀ b ∈ l₁ ++ a :: l₂, m.live b = true) (hn : (l₁ ++ a :: l₂).Nodup) :
    ∃ r, hashDelInBkt m tbl (hashToBkt (m.hashv a) tbl.numBuckets) a = .ok r ∧
      After m tbl (l₁ ++ l₂) r ∧
        ((l₁ ++ a :: l₂).length < 2 ^ 32 → Slim tbl → Slim r.2) := by
  obtain ⟨b, hb⟩ := h.bucket_at (m.hashv a)
  obtain ⟨chain, hc⟩ := h.buckets _ _ hb
  have hmem : a ∈ chain := hc.perm.mem_iff.mpr <|
    List.mem_filter.mpr ⟨List.mem_append_right _ List.mem_cons_self, beq_self_eq_true _⟩
  obtain ⟨c₁, c₂, rfl⟩ := List.append_of_mem hmem
  have hprev : ∀ c, m.hh.prev a = some c → m.live c = true := fun c he =>
    hlive c (hc.mem (List.mem_append_left _
      (List.mem_of_getLast? (hc.linked.prev_eq.symm.trans he)))).1
  have hnext : ∀ c, m.hh.next a = some c → m.live c = true := fun c he =>
    hlive c (hc.mem (List.mem_append_right _ (List.mem_cons_of_mem a
      (List.mem_of_mem_head? (Option.mem_def.mpr (hc.linked.next_eq.symm.trans he)))))).1
  have hself : m.hh.SameAt (m.hh.setNextOf (m.hh.prev a) (m.hh.next a)) a := by
    apply Links.sameAt_setNextOf
    rw [hc.linked.prev_eq]
    exact Links.getLast?_ne_of_notMem fun hm =>
      (List.nodup_append.mp (hc.nodup hn)).2.2 a hm a List.mem_cons_self rfl
  have hwrite := Mem.writeOf_setHhPrev (v := m.hh.prev a)
    (m := { m with hh := m.hh.setNextOf (m.hh.prev a) (m.hh.next a) }) hnext
  rw [hashDelInBkt]
  simp only [bucket_ok hb, ok_bind, Mem.access_ok (hlive a (by simp)),
    Mem.writeOf_setHhNext hprev, hself.next, hself.prev, hwrite]
  refine ⟨_, rfl, ⟨rfl, ⟨h.num_buckets, (List.length_set ..).trans h.size,
    h.buckets.unlink hn hb⟩, rfl, rfl⟩, fun hlt hslim hex b' hb' => ?_⟩
  rcases List.mem_or_eq_of_mem_set hb' with hb' | rfl
  · exact hslim hex b' hb'
  · have hone : (1 : UInt32) ≤ b.count := by
      rw [UInt32.le_iff_toNat_le, h.buckets.count_eq hb hlt]
      exact List.length_pos_of_mem (hc.perm.mem_iff.mp hmem)
    refine Nat.le_trans ?_ (hslim hex b (List.mem_of_getElem? hb))
    show (b.count - 1).toNat ≤ b.count.toNat
    rw [UInt32.toNat_sub_of_le _ _ hone]
    exact Nat.sub_le ..

end

end KoScripts.DataStruct.UtHash
