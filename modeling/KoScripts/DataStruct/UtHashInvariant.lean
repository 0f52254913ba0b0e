import KoScripts.DataStruct.UtHashBuckets

/-! # The shape of a hash

`Rep` is what holds of a hash between two macros: `prev` and `next` link its elements in the order
in which they were added, the buckets hold the same elements, and both counters agree with them. It
bounds neither the number of elements nor the number of buckets. -/

namespace KoScripts.DataStruct.UtHash
open Lib

structure Rep (hashFunction : Key → UInt32) (h : Hash) (items : List Addr) : Prop where
  nodup : items.Nodup
  live : ∀ a ∈ items, h.mem.live a = true
  hashv : ∀ a ∈ items, h.mem.hashv a = hashFunction (h.mem.key a)
  app : h.mem.app.Repr items
  head : h.head = items.head?
  tbl : h.tbl = none ↔ items = []
  table : ∀ tbl, h.tbl = some tbl → Table h.mem tbl items
  tail : ∀ tbl, h.tbl = some tbl → items.getLast? = some tbl.tail
  num_items : ∀ tbl, h.tbl = some tbl → tbl.numItems = UInt32.ofNat items.length

/-- No chain of the hash is longer than its bucket allows. -/
def Hash.Slim (h : Hash) : Prop := ∀ tbl, h.tbl = some tbl → UtHash.Slim tbl

section
variable {hashFunction : Key → UInt32} {h : Hash} {items l₁ l₂ : List Addr} {a : Addr} {key : Key}
  {fuel : Nat} {malloc : Malloc} {m : Mem} {tbl : UTHashTable} {chain : List Addr}

theorem Rep.empty : Rep hashFunction ⟨m, none, none⟩ [] where
  nodup := List.nodup_nil
  live := nofun
  hashv := nofun
  app := trivial
  head := rfl
  tbl := Iff.intro (fun _ => rfl) fun _ => rfl
  table := nofun
  tail := nofun
  num_items := nofun

/-- What lies outside the hash may change. -/
theorem Rep.of_mem (hr : Rep hashFunction h items) (live : Addr → Bool) (keys : Addr → Key)
    (hl : ∀ a ∈ items, live a = h.mem.live a) (hk : ∀ a ∈ items, keys a = h.mem.key a) :
    Rep hashFunction { h with mem := { h.mem with live, key := keys } } items where
  nodup := hr.nodup
  live a ha := (hl a ha).trans (hr.live a ha)
  hashv a ha := (hr.hashv a ha).trans (congrArg hashFunction (hk a ha).symm)
  app := hr.app
  head := hr.head
  tbl := hr.tbl
  table tbl ht := ⟨(hr.table tbl ht).num_buckets, (hr.table tbl ht).size, (hr.table tbl ht).buckets⟩
  tail := hr.tail
  num_items := hr.num_items

theorem Rep.table_ok (hr : Rep hashFunction h items) (hne : items ≠ []) :
    ∃ tbl, h.tbl = some tbl ∧ h.table = .ok tbl := by
  obtain ⟨tbl, ht⟩ := Option.ne_none_iff_exists'.mp fun hc => hne (hr.tbl.mp hc)
  obtain ⟨a, l, rfl⟩ := List.exists_cons_of_ne_nil hne
  refine ⟨tbl, ht, ?_⟩
  rw [Hash.table, hr.head, ht]
  show (h.mem.access a >>= fun _ => _) = _
  rw [Mem.access_ok (hr.live a List.mem_cons_self)]
  rfl

/-! ## Adding -/

theorem hashMakeTable_yields : Yields (Refuses malloc) (hashMakeTable malloc a) fun tbl =>
    Table m tbl [] ∧ tbl.tail = a ∧ tbl.numItems = 0 ∧ Slim tbl := by
  rw [hashMakeTable]
  split
  case isFalse hno => exact .inr ⟨rfl, _, Bool.eq_false_iff.mpr hno⟩
  split
  case isFalse hno => exact .inr ⟨rfl, _, Bool.eq_false_iff.mpr hno⟩
  refine .ok ⟨⟨rfl, List.length_replicate, Buckets.replicate⟩, rfl, rfl, fun _ b hb => ?_⟩
  cases List.eq_of_mem_replicate hb
  exact Nat.zero_le _

/-- The element `a` is linked at the end already, and is put into its bucket. -/
theorem hashAddToTable_yields (hm : Bounded malloc) (hn : (items ++ [a]).Nodup)
    (hlive : ∀ b ∈ items ++ [a], m.live b = true)
    (hhashv : ∀ b ∈ items ++ [a], m.hashv b = hashFunction (m.key b))
    (happ : m.app.Repr (items ++ [a])) (ht : Table m tbl items) (htail : tbl.tail = a)
    (hnum : tbl.numItems = UInt32.ofNat items.length) (hf : (items ++ [a]).length ≤ fuel) :
    Yields (Refuses malloc) (hashAddToTable fuel malloc m tbl (m.hashv a) a) fun r =>
      (∀ head, head = (items ++ [a]).head? →
        Rep hashFunction ⟨r.1, head, some r.2⟩ (items ++ [a])) ∧
      r.1.live = m.live ∧ r.1.key = m.key ∧
      ((items ++ [a]).length < 2 ^ 32 → Slim tbl → Slim r.2) := by
  have ht : Table m { tbl with numItems := tbl.numItems + 1 } items :=
    ⟨ht.num_buckets, ht.size, ht.buckets⟩
  have hadd := hashAddToBkt_yields hm ht hlive hn hf
  have hsucc : tbl.numItems + 1 = UInt32.ofNat (items ++ [a]).length := by
    rw [hnum, List.length_append, UInt32.ofNat_add]
    rfl
  refine hadd.mono (fun h => h) fun ⟨m', tbl'⟩ ⟨⟨hmem, htbl, htl, hni⟩, hslim⟩ => ?_
  obtain ⟨hh, rfl⟩ : ∃ hh, m' = { m with hh } := ⟨_, hmem⟩
  refine ⟨fun head hhead => ?_, rfl, rfl, fun hlt hs => hslim hsucc hlt hs⟩
  refine ⟨hn, hlive, hhashv, happ, hhead, ?_, ?_, ?_, ?_⟩
  · simp
  · rintro _ ⟨⟩
    exact htbl
  · rintro _ ⟨⟩
    rw [htl, htail, List.getLast?_concat]
  · rintro _ ⟨⟩
    exact hni.trans hsucc

/-- An element that is not in the hash is added at the end. -/
theorem hashAdd_yields (hm : Bounded malloc) (hr : Rep hashFunction h items)
    (hla : h.mem.live a = true) (ha : a ∉ items) (hf : items.length < fuel) :
    Yields (Refuses malloc) (hashAdd hashFunction fuel malloc h a) fun h' =>
      Rep hashFunction h' (items ++ [a]) ∧ h'.mem.live = h.mem.live ∧ h'.mem.key = h.mem.key ∧
        ((items ++ [a]).length < 2 ^ 32 → h.Slim → h'.Slim) := by
  have hlive : ∀ b ∈ items ++ [a], h.mem.live b = true := by
    intro b hb
    rcases List.mem_append.mp hb with hb | hb
    · exact hr.live b hb
    · exact List.mem_singleton.mp hb ▸ hla
  have hn : (items ++ [a]).Nodup := List.nodup_append.mpr ⟨hr.nodup, by simp, by grind⟩
  have hlen : (items ++ [a]).length ≤ fuel := (List.length_append ..).trans_le hf
  let hashv := Function.update h.mem.hashv a (hashFunction (h.mem.key a))
  have hself : hashv a = hashFunction (h.mem.key a) := Function.update_self ..
  have hother : ∀ b ∈ items, hashv b = h.mem.hashv b := fun b hb =>
    Function.update_of_ne (ne_of_mem_of_not_mem hb ha) ..
  have hhashv : ∀ b ∈ items ++ [a], hashv b = hashFunction (h.mem.key b) := by
    intro b hb
    rcases List.mem_append.mp hb with hb | hb
    · rw [hother b hb, hr.hashv b hb]
    · rw [List.mem_singleton.mp hb, hself]
  rw [hashAdd, Mem.access_ok hla, ok_bind, hashAddKeyptrByhashvalue, Mem.setHashv_ok hla, ok_bind]
  cases items with
  | nil =>
    simp only [hr.head, List.head?_nil, Mem.setNext_ok, Mem.setPrev_ok, hla, ok_bind]
    refine (hashMakeTable_yields (m := { h.mem with hashv := hashv })).bind
      fun tbl ⟨ht, htail, hnum, hs⟩ => ?_
    have hadd := hashAddToTable_yields (m := { h.mem with
      hashv := hashv, app := (h.mem.app.setNext a none).setPrev a none }) hm hn hlive hhashv
      ⟨Function.update_self .., Function.update_self .., trivial⟩
      ⟨ht.num_buckets, ht.size, ht.buckets⟩ htail hnum hlen
    simp only [hself] at hadd
    exact hadd.bind fun r ⟨hrep, hl, hk, hslim⟩ => .ok ⟨hrep _ rfl, hl, hk,
      fun hlt _ tbl' ht' => Option.some.inj ht' ▸ hslim hlt hs⟩
  | cons b items =>
    obtain ⟨tbl, hsome, htbl⟩ := hr.table_ok (List.cons_ne_nil b items)
    have hlt : h.mem.live tbl.tail = true := hr.live _ (List.mem_of_getLast? (hr.tail tbl hsome))
    have ht := hr.table tbl hsome
    have ht : Table { h.mem with hashv := hashv, app := h.mem.app.append tbl.tail a }
        { tbl with tail := a } (b :: items) :=
      ⟨ht.num_buckets, ht.size, ht.buckets.congr (fun _ _ => .refl) fun c hc =>
        congrArg (hashToBkt · tbl.numBuckets) (hother c hc)⟩
    have hadd := hashAddToTable_yields (m := { h.mem with
      hashv := hashv, app := h.mem.app.append tbl.tail a }) hm hn hlive hhashv
      (hr.app.append hr.nodup (hr.tail tbl hsome) ha) ht rfl (hr.num_items tbl hsome) hlen
    simp only [hself] at hadd
    simp only [hr.head, List.head?_cons, htbl, ok_bind, hashAppendList, Mem.setNext_ok,
      Mem.setPrev_ok, hla, hlt, pure_eq]
    exact hadd.bind fun r ⟨hrep, hl, hk, hslim⟩ => .ok ⟨hrep _ rfl, hl, hk,
      fun hlt hs tbl' ht' => Option.some.inj ht' ▸ hslim hlt (hs tbl hsome)⟩

/-! ## Deleting -/

theorem tailWithout_ok {t : Addr} (hn : (l₁ ++ a :: l₂).Nodup)
    (ht : (l₁ ++ a :: l₂).getLast? = some t) (hprev : m.app.prev a = l₁.getLast?)
    (hne : l₁ ++ l₂ ≠ []) :
    ∃ t', tailWithout m t a = .ok t' ∧ (l₁ ++ l₂).getLast? = some t' := by
  rw [tailWithout]
  cases l₂ with
  | nil =>
    rw [List.getLast?_concat] at ht
    rw [List.append_nil] at hne ⊢
    rw [if_pos (Option.some.inj ht), hprev, List.getLast?_eq_some_getLast hne]
    exact ⟨_, rfl, rfl⟩
  | cons b l₂ =>
    have ht₂ : (b :: l₂).getLast? = some t := by
      rw [List.getLast?_append, List.getLast?_cons_cons] at ht
      rwa [List.getLast?_eq_some_getLast (List.cons_ne_nil b l₂)] at ht ⊢
    have hne : a ≠ t := by
      rintro rfl
      exact (List.nodup_cons.mp (List.nodup_append.mp hn).2.1).1 (List.mem_of_getLast? ht₂)
    rw [if_neg hne, List.getLast?_append, ht₂]
    exact ⟨t, rfl, rfl⟩

theorem hashUnlink_ok (hr : Rep hashFunction h (l₁ ++ a :: l₂)) (hsome : h.tbl = some tbl)
    (hne : l₁ ++ l₂ ≠ []) :
    ∃ h', hashUnlink h tbl a = .ok h' ∧ Rep hashFunction h' (l₁ ++ l₂) ∧
      h'.mem.live = h.mem.live ∧ h'.mem.key = h.mem.key ∧
      ((l₁ ++ a :: l₂).length < 2 ^ 32 → h.Slim → h'.Slim) := by
  have hsub : ∀ b ∈ l₁ ++ l₂, b ∈ l₁ ++ a :: l₂ := fun b hb => by
    rw [List.mem_append] at hb ⊢
    exact hb.imp_right (List.mem_cons_of_mem a)
  have hprev := hr.app.prev_eq
  have hnext := hr.app.next_eq
  have hlp : ∀ c, h.mem.app.prev a = some c → h.mem.live c = true := fun c hc =>
    hr.live c (List.mem_append_left _ (List.mem_of_getLast? (hprev.symm.trans hc)))
  have hln : ∀ c, h.mem.app.next a = some c → h.mem.live c = true := fun c hc =>
    hr.live c (List.mem_append_right _ (List.mem_cons_of_mem a
      (List.mem_of_mem_head? (Option.mem_def.mpr (hnext.symm.trans hc)))))
  have ha₁ : a ∉ l₁ := fun hm =>
    (List.nodup_append.mp hr.nodup).2.2 a hm a List.mem_cons_self rfl
  have hself : h.mem.app.SameAt
      (h.mem.app.setNextOf (h.mem.app.prev a) (h.mem.app.next a)) a := by
    apply Links.sameAt_setNextOf
    rw [hprev]
    exact Links.getLast?_ne_of_notMem ha₁
  have hwrite := Mem.writeOf_setPrev (v := h.mem.app.prev a) (m := { h.mem with
    app := h.mem.app.setNextOf (h.mem.app.prev a) (h.mem.app.next a) }) hln
  obtain ⟨tail, htail, hlast⟩ := tailWithout_ok hr.nodup (hr.tail tbl hsome) hprev hne
  have hhead : (if h.mem.app.prev a = none then h.mem.app.next a else h.head) =
      (l₁ ++ l₂).head? := by
    rw [hprev, hnext, hr.head]
    cases l₁ with
    | nil => rfl
    | cons b l₁ => exact if_neg (by simp)
  have ht := hr.table tbl hsome
  have ht : Table { h.mem with app := h.mem.app.unlink a } { tbl with tail } (l₁ ++ a :: l₂) :=
    ⟨ht.num_buckets, ht.size, ht.buckets⟩
  obtain ⟨⟨m', tbl'⟩, hdel, ⟨hmem, htbl, htl, hni⟩, hslim⟩ := hashDelInBkt_ok ht hr.live hr.nodup
  obtain ⟨hh, rfl⟩ : ∃ hh, m' = { h.mem with app := h.mem.app.unlink a, hh } := ⟨_, hmem⟩
  have htable : Hash.table ⟨{ h.mem with app := h.mem.app.unlink a }, (l₁ ++ l₂).head?,
      some { tbl with tail }⟩ = .ok { tbl with tail } := by
    obtain ⟨b, l, hl⟩ := List.exists_cons_of_ne_nil hne
    rw [hl, List.head?_cons, Hash.table]
    simp only [Mem.access_ok (m := { h.mem with app := h.mem.app.unlink a })
      (hr.live b (hsub b (hl ▸ List.mem_cons_self))), ok_bind, pure_eq]
  rw [hashUnlink]
  simp only [htail, ok_bind, hhead, Mem.writeOf_setNext hlp, hself.next, hself.prev, hwrite]
  rw [show (h.mem.app.setNextOf (h.mem.app.prev a) (h.mem.app.next a)).setPrevOf
    (h.mem.app.next a) (h.mem.app.prev a) = h.mem.app.unlink a from rfl]
  simp only [htable, ok_bind, hdel, pure_eq]
  refine ⟨_, rfl, ⟨?_, ?_, ?_, hr.app.unlink hr.nodup, rfl, ?_, ?_, ?_, ?_⟩, rfl, rfl,
    fun hlt hs tbl₁ ht₁ => Option.some.inj ht₁ ▸ hslim hlt (hs tbl hsome)⟩
  · exact (List.nodup_middle.mp hr.nodup).of_cons
  · exact fun b hb => hr.live b (hsub b hb)
  · exact fun b hb => hr.hashv b (hsub b hb)
  · simpa using hne
  · rintro _ ⟨⟩
    exact ⟨htbl.num_buckets, htbl.size, htbl.buckets⟩
  · rintro _ ⟨⟩
    exact hlast.trans (congrArg some htl.symm)
  · rintro _ ⟨⟩
    show tbl'.numItems - 1 = _
    rw [hni, hr.num_items tbl hsome, List.length_append, List.length_append, List.length_cons,
      ← Nat.add_assoc, UInt32.ofNat_add _ 1]
    exact UInt32.add_sub_cancel ..

/-- Deleting an element of the hash; its memory stays allocated. -/
theorem hashDelete_ok (hr : Rep hashFunction h (l₁ ++ a :: l₂)) :
    ∃ h', hashDelete h a = .ok h' ∧ Rep hashFunction h' (l₁ ++ l₂) ∧
      h'.mem.live = h.mem.live ∧ h'.mem.key = h.mem.key ∧
      ((l₁ ++ a :: l₂).length < 2 ^ 32 → h.Slim → h'.Slim) := by
  obtain ⟨tbl, hsome, htbl⟩ := hr.table_ok (by simp)
  rw [hashDelete, Mem.access_ok (hr.live a (by simp)), ok_bind, htbl, ok_bind, hr.app.prev_eq,
    hr.app.next_eq]
  split
  case isTrue hnil =>
    obtain rfl := List.getLast?_eq_none_iff.mp hnil.1
    obtain rfl := List.head?_eq_none_iff.mp hnil.2
    exact ⟨_, rfl, Rep.empty, rfl, rfl, fun _ _ => nofun⟩
  case isFalse hne =>
    refine hashUnlink_ok hr hsome fun hnil => hne ?_
    obtain ⟨rfl, rfl⟩ := List.append_eq_nil_iff.mp hnil
    exact ⟨rfl, rfl⟩

/-! ## Finding and counting -/

theorem hashFindInBkt_ok {p : Option Addr} (key : Key) (v : UInt32) (hc : m.hh.Seg p chain none)
    (hlive : ∀ a ∈ chain, m.live a = true) (hf : chain.length ≤ fuel) :
    hashFindInBkt m key v fuel chain.head? =
      .ok (chain.find? fun a => m.hashv a = v ∧ m.key a = key) := by
  induction chain generalizing p fuel with
  | nil => rw [List.head?_nil, hashFindInBkt, List.find?_nil]
  | cons a chain ih =>
    obtain ⟨fuel, rfl⟩ := Nat.exists_eq_add_of_le' (Nat.le_of_add_left_le hf)
    have hnext : m.hh.next a = chain.head? := hc.2.1.trans (Option.or_none ..)
    have hrest := ih hc.2.2 (fun b hb => hlive b (List.mem_cons_of_mem a hb))
      (Nat.le_of_succ_le_succ hf)
    rw [List.head?_cons, hashFindInBkt, Mem.access_ok (hlive a List.mem_cons_self), ok_bind, hnext]
    by_cases hk : m.hashv a = v ∧ m.key a = key
    · rw [if_pos ⟨hk.1, congrArg _ hk.2, hk.2⟩, List.find?_cons_of_pos (by simpa using hk)]
      rfl
    · rw [if_neg fun hc => hk ⟨hc.1, hc.2.2⟩, List.find?_cons_of_neg (by simpa using hk)]
      exact hrest

/-- What a search answers: an element with the key, and nothing only where there is none. -/
structure Finds (m : Mem) (items : List Addr) (key : Key) (out : Option Addr) : Prop where
  found : ∀ a, out = some a → a ∈ items ∧ m.key a = key
  missing : out = none → ∀ a ∈ items, m.key a ≠ key

theorem hashFind_ok (hr : Rep hashFunction h items) (hf : items.length ≤ fuel) (key : Key) :
    ∃ out, hashFind hashFunction fuel h key = .ok out ∧ Finds h.mem items key out := by
  rw [hashFind]
  cases items with
  | nil =>
    rw [hr.head]
    exact ⟨none, rfl, nofun, fun _ => nofun⟩
  | cons b items =>
    obtain ⟨tbl, hsome, htbl⟩ := hr.table_ok (List.cons_ne_nil b items)
    have ht := hr.table tbl hsome
    obtain ⟨bkt, hb⟩ := ht.bucket_at (hashFunction key)
    obtain ⟨chain, hc⟩ := ht.buckets _ _ hb
    have hlen : chain.length ≤ fuel :=
      (hc.perm.length_eq.trans_le (List.length_filter_le ..)).trans hf
    have hfind := hashFindInBkt_ok key (hashFunction key) hc.linked
      (fun a ha => hr.live a (hc.mem ha).1) hlen
    rw [hr.head, List.head?_cons]
    simp only [hashFindByhashvalue, hr.head, List.head?_cons, htbl, ok_bind, bucket_ok hb,
      hc.head, hfind]
    refine ⟨_, rfl, fun a ha => ?_, fun hnone a ha hk => ?_⟩
    · have hmem := List.mem_of_find?_eq_some ha
      have hpos := List.find?_some ha
      exact ⟨(hc.mem hmem).1, (of_decide_eq_true hpos).2⟩
    · have hv : h.mem.hashv a = hashFunction key := (hr.hashv a ha).trans (congrArg _ hk)
      have hmem : a ∈ chain := hc.perm.mem_iff.mpr <| List.mem_filter.mpr
        ⟨ha, beq_iff_eq.mpr (congrArg (hashToBkt · tbl.numBuckets) hv)⟩
      exact List.find?_eq_none.mp hnone a hmem (decide_eq_true ⟨hv, hk⟩)

theorem hashCount_ok (hr : Rep hashFunction h items) :
    hashCount h = .ok (UInt32.ofNat items.length) := by
  rw [hashCount]
  cases items with
  | nil =>
    rw [hr.head]
    rfl
  | cons b items =>
    obtain ⟨tbl, hsome, htbl⟩ := hr.table_ok (List.cons_ne_nil b items)
    rw [hr.head, ← hr.num_items tbl hsome]
    show (h.table >>= fun tbl => _) = _
    rw [htbl]
    rfl

/-! ## Going through the elements -/

/-- The elements `l` are there, and `next` leads through them to the end. -/
def Ahead (m : Mem) (l : List Addr) : Prop :=
  (∀ a ∈ l, m.live a = true) ∧ ∃ p, m.app.Seg p l none

theorem Ahead.nextOf_head? {l : List Addr} (h : Ahead m l) :
    nextOf m l.head? = .ok l.tail.head? := by
  cases l with
  | nil => rfl
  | cons a l =>
    obtain ⟨hlive, p, hseg⟩ := h
    rw [List.head?_cons, nextOf, Mem.access_ok (hlive a List.mem_cons_self), ok_bind, hseg.2.1,
      Option.or_none]
    rfl

section
variable {β : Type} {body : Hash → Addr → Except Stop (Hash × β)} {g : Addr → β}
  {P : List Addr → Hash → Prop} {l : List Addr}

/-- The rule for the loop: `P l` holds where `l` is still to be visited. The body may do anything to
the element it is at, as long as the way on is left as it was. -/
theorem hashIterFrom_ok (hahead : ∀ {l h}, P l h → Ahead h.mem l)
    (hbody : ∀ {a l h}, P (a :: l) h → ∃ h', body h a = .ok (h', g a) ∧ P l h')
    (hP : P l h) (hf : l.length ≤ fuel) :
    ∃ h', hashIterFrom body fuel h l.head? l.tail.head? = .ok (h', l.map g) ∧ P [] h' := by
  induction l generalizing h fuel with
  | nil =>
    refine ⟨h, ?_, hP⟩
    rw [List.head?_nil, hashIterFrom]
    rfl
  | cons a l ih =>
    obtain ⟨fuel, rfl⟩ := Nat.exists_eq_add_of_le' (Nat.le_of_add_left_le hf)
    obtain ⟨h₁, hstep, hP₁⟩ := hbody hP
    obtain ⟨h₂, hrest, hP₂⟩ := ih hP₁ (Nat.le_of_succ_le_succ hf)
    refine ⟨h₂, ?_, hP₂⟩
    rw [List.head?_cons, List.tail_cons, hashIterFrom]
    simp only [hstep, ok_bind, (hahead hP₁).nextOf_head?, hrest, pure_eq, List.map_cons]

theorem hashIter_ok (hahead : ∀ {l h}, P l h → Ahead h.mem l)
    (hbody : ∀ {a l h}, P (a :: l) h → ∃ h', body h a = .ok (h', g a) ∧ P l h')
    (hP : P items h) (hhead : h.head = items.head?) (hf : items.length ≤ fuel) :
    ∃ h', hashIter body fuel h = .ok (h', items.map g) ∧ P [] h' := by
  obtain ⟨h', hloop, hP'⟩ := hashIterFrom_ok hahead hbody hP hf
  refine ⟨h', ?_, hP'⟩
  rw [hashIter, hhead, (hahead hP).nextOf_head?, ok_bind, hloop]

end

theorem Rep.ahead (hr : Rep hashFunction h items) : Ahead h.mem items := ⟨hr.live, none, hr.app⟩

/-! ## The integrity check -/

theorem fsckWalk_ok {k : Links Addr} {p : Option Addr} (count : UInt32)
    (hc : k.Seg p chain none) (hlive : ∀ a ∈ chain, m.live a = true) (hf : chain.length ≤ fuel) :
    fsckWalk m k fuel p count chain.head? = .ok (count + UInt32.ofNat chain.length) := by
  induction chain generalizing p count fuel with
  | nil =>
    rw [List.head?_nil, fsckWalk]
    exact congrArg _ (UInt32.add_zero _).symm
  | cons a chain ih =>
    obtain ⟨fuel, rfl⟩ := Nat.exists_eq_add_of_le' (Nat.le_of_add_left_le hf)
    have hnext : k.next a = chain.head? := hc.2.1.trans (Option.or_none ..)
    rw [List.head?_cons, fsckWalk, Mem.access_ok (hlive a List.mem_cons_self), ok_bind, hc.1,
      if_neg (not_not_intro rfl), hnext, ih _ hc.2.2
        (fun b hb => hlive b (List.mem_cons_of_mem a hb)) (Nat.le_of_succ_le_succ hf),
      List.length_cons, UInt32.ofNat_add, UInt32.add_assoc, UInt32.add_comm 1]
    rfl

/-- The loop over the buckets has counted the elements of the buckets behind it. -/
theorem fsckBuckets_ok {i : Nat} (ht : Table m tbl items)
    (hlive : ∀ a ∈ items, m.live a = true) (hf : items.length ≤ fuel)
    (hi : i ≤ tbl.numBuckets.toNat) :
    (List.range i).foldlM (fsckBucket fuel m tbl) 0 = .ok (UInt32.ofNat
      (items.filter fun a => hashToBkt (m.hashv a) tbl.numBuckets < i).length) := by
  induction i with
  | zero =>
    rw [List.filter_eq_nil_iff.mpr (by simp)]
    rfl
  | succ i ih =>
    have hb := List.getElem?_eq_getElem (l := tbl.buckets) (ht.size.symm ▸ hi : i < _)
    obtain ⟨chain, hc⟩ := ht.buckets i _ hb
    have hwalk := fsckWalk_ok 0 hc.linked (fun a ha => hlive a (hc.mem ha).1)
      ((hc.perm.length_eq.trans_le (List.length_filter_le ..)).trans hf)
    have hlen :=
      (filter_lt_succ items (fun a => hashToBkt (m.hashv a) tbl.numBuckets) i).length_eq
    rw [List.range_succ, List.foldlM_append, ih (Nat.le_of_succ_le hi), ok_bind, List.foldlM_cons,
      fsckBucket, bucket_ok hb, ok_bind, hc.head, hwalk, ok_bind, UInt32.zero_add,
      if_neg (not_not_intro hc.count), ← hlen, List.length_append, UInt32.ofNat_add,
      ← hc.perm.length_eq]
    rfl

theorem hashFsck_ok (hr : Rep hashFunction h items) (hf : items.length ≤ fuel) :
    hashFsck fuel h = .ok () := by
  rw [hashFsck]
  cases items with
  | nil =>
    rw [hr.head]
    rfl
  | cons b items =>
    obtain ⟨tbl, hsome, htbl⟩ := hr.table_ok (List.cons_ne_nil b items)
    have ht := hr.table tbl hsome
    have hbkts := fsckBuckets_ok ht hr.live hf (Nat.le_refl _)
    rw [List.filter_eq_self.mpr fun a _ => decide_eq_true (hashToBkt_lt ht.pos)] at hbkts
    have hwalk := fsckWalk_ok 0 hr.app hr.live hf
    rw [List.head?_cons, UInt32.zero_add] at hwalk
    rw [hr.head, List.head?_cons]
    simp only [htbl, ok_bind, hbkts, hwalk, hr.num_items tbl hsome, ne_eq, not_true_eq_false,
      if_false, pure_eq]

end

end KoScripts.DataStruct.UtHash
