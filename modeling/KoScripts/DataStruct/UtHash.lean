import Mathlib.Data.UInt
import KoScripts.Lib.DoublyLinked

/-! # uthash

The macros of `third_party/uthash.h` that `src/datastruct/hash.c` uses, for one hash handle `hh`
and with the options the header sets by default: no Bloom filter, memory that is not to be had ends
the program. An element and the handle inside it are named by one address. The handles lie in two
doubly linked structures: `prev` and `next` keep the order in which the elements were added, the
chains of the buckets are linked by `hh_prev` and `hh_next`.

The memory is one map for each field. Every access checks that the element is there; a walk is given
fuel and diverges where it runs out. -/

namespace KoScripts.DataStruct.UtHash
open Lib

abbrev Addr := Nat

/-- The bytes of a key, `keylen` of them at `key`. -/
abbrev Key := List UInt8

/-- Why a macro does not get to its end. -/
inductive Stop
  | fatal
  | oops
  | invalid
  | diverged
deriving DecidableEq

def deref : Option Addr → Except Stop Addr
  | none => .error .invalid
  | some a => .ok a

/-- The elements that are allocated, with their keys and their handles. -/
structure Mem where
  live : Addr → Bool
  key : Addr → Key
  hashv : Addr → UInt32
  app : Links Addr
  hh : Links Addr

namespace Mem
variable (m : Mem)

def access (a : Addr) : Except Stop Unit := if m.live a then .ok () else .error .invalid

def setHashv (a : Addr) (v : UInt32) : Except Stop Mem := do
  m.access a
  return { m with hashv := Function.update m.hashv a v }

def setNext (a : Addr) (v : Option Addr) : Except Stop Mem := do
  m.access a
  return { m with app := m.app.setNext a v }

def setPrev (a : Addr) (v : Option Addr) : Except Stop Mem := do
  m.access a
  return { m with app := m.app.setPrev a v }

def setHhNext (a : Addr) (v : Option Addr) : Except Stop Mem := do
  m.access a
  return { m with hh := m.hh.setNext a v }

def setHhPrev (a : Addr) (v : Option Addr) : Except Stop Mem := do
  m.access a
  return { m with hh := m.hh.setPrev a v }

/-- A write behind a null check: `if (o) write o`. -/
def writeOf (o : Option Addr) (write : Addr → Except Stop Mem) : Except Stop Mem :=
  match o with
  | none => return m
  | some a => write a

end Mem

@[simp] theorem ok_bind {α β : Type} (x : α) (f : α → Except Stop β) :
    (Except.ok x >>= f) = f x := rfl

@[simp] theorem pure_eq {α : Type} (x : α) : (pure x : Except Stop α) = .ok x := rfl

namespace Mem
variable {m : Mem} {a : Addr} {o v : Option Addr} {n : UInt32}

theorem access_ok (h : m.live a = true) : m.access a = .ok () := if_pos h

theorem setHashv_ok (h : m.live a = true) :
    m.setHashv a n = .ok { m with hashv := Function.update m.hashv a n } := by
  rw [setHashv, access_ok h]
  rfl

theorem setNext_ok (h : m.live a = true) :
    m.setNext a v = .ok { m with app := m.app.setNext a v } := by
  rw [setNext, access_ok h]
  rfl

theorem setPrev_ok (h : m.live a = true) :
    m.setPrev a v = .ok { m with app := m.app.setPrev a v } := by
  rw [setPrev, access_ok h]
  rfl

theorem setHhNext_ok (h : m.live a = true) :
    m.setHhNext a v = .ok { m with hh := m.hh.setNext a v } := by
  rw [setHhNext, access_ok h]
  rfl

theorem setHhPrev_ok (h : m.live a = true) :
    m.setHhPrev a v = .ok { m with hh := m.hh.setPrev a v } := by
  rw [setHhPrev, access_ok h]
  rfl

theorem writeOf_setNext (h : ∀ a, o = some a → m.live a = true) :
    m.writeOf o (m.setNext · v) = .ok { m with app := m.app.setNextOf o v } := by
  cases o with
  | none => rfl
  | some a => exact setNext_ok (h a rfl)

theorem writeOf_setPrev (h : ∀ a, o = some a → m.live a = true) :
    m.writeOf o (m.setPrev · v) = .ok { m with app := m.app.setPrevOf o v } := by
  cases o with
  | none => rfl
  | some a => exact setPrev_ok (h a rfl)

theorem writeOf_setHhNext (h : ∀ a, o = some a → m.live a = true) :
    m.writeOf o (m.setHhNext · v) = .ok { m with hh := m.hh.setNextOf o v } := by
  cases o with
  | none => rfl
  | some a => exact setHhNext_ok (h a rfl)

theorem writeOf_setHhPrev (h : ∀ a, o = some a → m.live a = true) :
    m.writeOf o (m.setHhPrev · v) = .ok { m with hh := m.hh.setPrevOf o v } := by
  cases o with
  | none => rfl
  | some a => exact setHhPrev_ok (h a rfl)

end Mem

structure UTHashBucket where
  hhHead : Option Addr
  count : UInt32
  expandMult : UInt32
deriving DecidableEq

structure UTHashTable where
  buckets : List UTHashBucket
  numBuckets : UInt32
  log2NumBuckets : UInt32
  numItems : UInt32
  tail : Addr
  idealChainMaxlen : UInt32
  nonidealItems : UInt32
  ineffExpands : UInt32
  noexpand : UInt32

/-- `buckets[i]` -/
def bucket (buckets : List UTHashBucket) (i : Nat) : Except Stop UTHashBucket :=
  match buckets[i]? with
  | some b => .ok b
  | none => .error .invalid

theorem bucket_ok {buckets : List UTHashBucket} {b : UTHashBucket} {i : Nat}
    (h : buckets[i]? = some b) : bucket buckets i = .ok b := by
  rw [bucket, h]

/-- The variable `head` and what it leads to. -/
structure Hash where
  mem : Mem
  head : Option Addr
  tbl : Option UTHashTable

/-- `(head)->hh.tbl` -/
def Hash.table (h : Hash) : Except Stop UTHashTable :=
  match h.head, h.tbl with
  | some head, some tbl => do
    h.mem.access head
    return tbl
  | _, _ => .error .invalid

/-- What `uthash_malloc` gives: whether there is memory for so many bytes. -/
abbrev Malloc := Nat → Bool

def sizeofTable : Nat := 64
def sizeofBucket : Nat := 16
def hashInitialNumBuckets : UInt32 := 32
def hashInitialNumBucketsLog2 : UInt32 := 5
def hashBktCapacityThresh : UInt32 := 10

/-! ## The hash function -/

def hashJenMix (a b c : UInt32) : UInt32 × UInt32 × UInt32 :=
  let a := (a - b - c) ^^^ (c >>> 13)
  let b := (b - c - a) ^^^ (a <<< 8)
  let c := (c - a - b) ^^^ (b >>> 13)
  let a := (a - b - c) ^^^ (c >>> 12)
  let b := (b - c - a) ^^^ (a <<< 16)
  let c := (c - a - b) ^^^ (b >>> 5)
  let a := (a - b - c) ^^^ (c >>> 3)
  let b := (b - c - a) ^^^ (a <<< 10)
  let c := (c - a - b) ^^^ (b >>> 15)
  (a, b, c)

/-- Byte `n` of the key shifted to its place, nothing behind the end of the key. -/
def jenByte (key : Key) (n : Nat) (shift : UInt32) : UInt32 :=
  (key[n]?.getD 0).toUInt32 <<< shift

/-- The loop over blocks of twelve bytes: what is left of the key, and the state. -/
def hashJenBlocks : Nat → Key → UInt32 × UInt32 × UInt32 → Key × UInt32 × UInt32 × UInt32
  | 0, key, s => (key, s)
  | blocks + 1, key, (i, j, hashv) =>
    let i := i + jenByte key 0 0 + jenByte key 1 8 + jenByte key 2 16 + jenByte key 3 24
    let j := j + jenByte key 4 0 + jenByte key 5 8 + jenByte key 6 16 + jenByte key 7 24
    let hashv :=
      hashv + jenByte key 8 0 + jenByte key 9 8 + jenByte key 10 16 + jenByte key 11 24
    hashJenBlocks blocks (key.drop 12) (hashJenMix i j hashv)

def hashJen (key : Key) : UInt32 :=
  let (rest, i, j, hashv) :=
    hashJenBlocks (key.length / 12) key (0x9e3779b9, 0x9e3779b9, 0xfeedbeef)
  let hashv := hashv + UInt32.ofNat key.length
  -- The cases of the switch fall through: every byte that is left is added.
  let hashv := hashv + jenByte rest 10 24 + jenByte rest 9 16 + jenByte rest 8 8
  let j := j + jenByte rest 7 24 + jenByte rest 6 16 + jenByte rest 5 8 + jenByte rest 4 0
  let i := i + jenByte rest 3 24 + jenByte rest 2 16 + jenByte rest 1 8 + jenByte rest 0 0
  (hashJenMix i j hashv).2.2

/-! ## Buckets -/

def hashToBkt (hashv numBkts : UInt32) : Nat := (hashv &&& (numBkts - 1)).toNat

theorem hashToBkt_lt {hashv numBkts : UInt32} (h : 0 < numBkts.toNat) :
    hashToBkt hashv numBkts < numBkts.toNat := by
  have hle : (1 : UInt32) ≤ numBkts := UInt32.le_iff_toNat_le.mpr h
  have hand : hashToBkt hashv numBkts ≤ (numBkts - 1).toNat := by
    rw [hashToBkt, UInt32.toNat_and]
    exact Nat.and_le_right
  rw [UInt32.toNat_sub_of_le _ _ hle] at hand
  exact Nat.lt_of_le_pred h hand

/-- `expand_mult` of a new bucket into which one more element comes. -/
def nextMult (idealChainMaxlen : UInt32) (newbkt : UTHashBucket) : UInt32 :=
  if newbkt.count + 1 > idealChainMaxlen ∧
      newbkt.count + 1 > newbkt.expandMult * idealChainMaxlen then
    newbkt.expandMult + 1
  else newbkt.expandMult

/-- The `while` loop of `HASH_EXPAND_BUCKETS` over the chain of one old bucket, from `thh` on, on
the memory, the new buckets and `nonideal_items`. -/
def expandChain (numBuckets idealChainMaxlen : UInt32) :
    Nat → Option Addr → Mem × List UTHashBucket × UInt32 →
      Except Stop (Mem × List UTHashBucket × UInt32)
  | _, none, s => .ok s
  | 0, some _, _ => .error .diverged
  | fuel + 1, some thh, (m, newBuckets, nonidealItems) => do
    m.access thh
    let hhNxt := m.hh.next thh
    let bkt := hashToBkt (m.hashv thh) (numBuckets * 2)
    let newbkt ← bucket newBuckets bkt
    let m ← m.setHhPrev thh none
    let m ← m.setHhNext thh newbkt.hhHead
    let m ← m.writeOf newbkt.hhHead (m.setHhPrev · (some thh))
    expandChain numBuckets idealChainMaxlen fuel hhNxt
      (m, newBuckets.set bkt ⟨some thh, newbkt.count + 1, nextMult idealChainMaxlen newbkt⟩,
        if newbkt.count + 1 > idealChainMaxlen then nonidealItems + 1 else nonidealItems)

/-- One round of the `for` loop over the old buckets. -/
def expandBucket (fuel : Nat) (tbl : UTHashTable) (ideal : UInt32)
    (s : Mem × List UTHashBucket × UInt32) (i : Nat) :
    Except Stop (Mem × List UTHashBucket × UInt32) := do
  let b ← bucket tbl.buckets i
  expandChain tbl.numBuckets ideal fuel b.hhHead s

/-- The elements of the longest chain if they were spread evenly over twice the buckets. -/
def idealMaxlen (tbl : UTHashTable) : UInt32 :=
  (tbl.numItems >>> (tbl.log2NumBuckets + 1)) +
    (if tbl.numItems &&& (tbl.numBuckets * 2 - 1) ≠ 0 then 1 else 0)

def hashExpandBuckets (fuel : Nat) (malloc : Malloc) (m : Mem) (tbl : UTHashTable) :
    Except Stop (Mem × UTHashTable) :=
  if malloc (sizeofBucket * tbl.numBuckets.toNat * 2) then do
    let newBuckets := List.replicate (tbl.numBuckets.toNat * 2) ⟨none, 0, 0⟩
    let ideal := idealMaxlen tbl
    let (m, newBuckets, nonidealItems) ←
      (List.range tbl.numBuckets.toNat).foldlM (expandBucket fuel tbl ideal) (m, newBuckets, 0)
    let ineffExpands :=
      if nonidealItems > tbl.numItems >>> 1 then tbl.ineffExpands + 1 else 0
    return (m, { tbl with
      buckets := newBuckets
      numBuckets := tbl.numBuckets * 2
      log2NumBuckets := tbl.log2NumBuckets + 1
      idealChainMaxlen := ideal
      nonidealItems
      ineffExpands
      noexpand := if ineffExpands > 1 then 1 else tbl.noexpand })
  else .error .fatal

def hashAddToBkt (fuel : Nat) (malloc : Malloc) (m : Mem) (tbl : UTHashTable) (bkt : Nat)
    (add : Addr) : Except Stop (Mem × UTHashTable) := do
  let head ← bucket tbl.buckets bkt
  let count := head.count + 1
  let m ← m.setHhNext add head.hhHead
  let m ← m.setHhPrev add none
  let m ← m.writeOf head.hhHead (m.setHhPrev · (some add))
  let tbl := { tbl with buckets := tbl.buckets.set bkt ⟨some add, count, head.expandMult⟩ }
  if count ≥ (head.expandMult + 1) * hashBktCapacityThresh ∧ tbl.noexpand = 0 then
    hashExpandBuckets fuel malloc m tbl
  else return (m, tbl)

def hashDelInBkt (m : Mem) (tbl : UTHashTable) (bkt : Nat) (del : Addr) :
    Except Stop (Mem × UTHashTable) := do
  let head ← bucket tbl.buckets bkt
  m.access del
  let hhHead := if head.hhHead = some del then m.hh.next del else head.hhHead
  let m ← m.writeOf (m.hh.prev del) (m.setHhNext · (m.hh.next del))
  let m ← m.writeOf (m.hh.next del) (m.setHhPrev · (m.hh.prev del))
  return (m, { tbl with
    buckets := tbl.buckets.set bkt ⟨hhHead, head.count - 1, head.expandMult⟩ })

/-! ## Adding -/

def hashMakeTable (malloc : Malloc) (head : Addr) : Except Stop UTHashTable :=
  if malloc sizeofTable then
    if malloc (hashInitialNumBuckets.toNat * sizeofBucket) then
      .ok {
        buckets := List.replicate hashInitialNumBuckets.toNat ⟨none, 0, 0⟩
        numBuckets := hashInitialNumBuckets
        log2NumBuckets := hashInitialNumBucketsLog2
        numItems := 0
        tail := head
        idealChainMaxlen := 0
        nonidealItems := 0
        ineffExpands := 0
        noexpand := 0 }
    else .error .fatal
  else .error .fatal

def hashAppendList (m : Mem) (tbl : UTHashTable) (add : Addr) :
    Except Stop (Mem × UTHashTable) := do
  let m ← m.setNext add none
  let m ← m.setPrev add (some tbl.tail)
  let m ← m.setNext tbl.tail (some add)
  return (m, { tbl with tail := add })

def hashAddToTable (fuel : Nat) (malloc : Malloc) (m : Mem) (tbl : UTHashTable) (hashval : UInt32)
    (add : Addr) : Except Stop (Mem × UTHashTable) :=
  hashAddToBkt fuel malloc m { tbl with numItems := tbl.numItems + 1 }
    (hashToBkt hashval tbl.numBuckets) add

def hashAddKeyptrByhashvalue (fuel : Nat) (malloc : Malloc) (h : Hash) (hashval : UInt32)
    (add : Addr) : Except Stop Hash := do
  let m ← h.mem.setHashv add hashval
  match h.head with
  | none =>
    let m ← m.setNext add none
    let m ← m.setPrev add none
    let tbl ← hashMakeTable malloc add
    let (m, tbl) ← hashAddToTable fuel malloc m tbl hashval add
    return ⟨m, some add, some tbl⟩
  | some head =>
    let tbl ← h.table
    let (m, tbl) ← hashAppendList m tbl add
    let (m, tbl) ← hashAddToTable fuel malloc m tbl hashval add
    return ⟨m, some head, some tbl⟩

section
variable (hashFunction : Key → UInt32)

/-- `HASH_ADD`, the key being a field of the element. -/
def hashAdd (fuel : Nat) (malloc : Malloc) (h : Hash) (add : Addr) : Except Stop Hash := do
  h.mem.access add
  hashAddKeyptrByhashvalue fuel malloc h (hashFunction (h.mem.key add)) add

/-! ## Finding -/

def hashFindInBkt (m : Mem) (key : Key) (hashval : UInt32) :
    Nat → Option Addr → Except Stop (Option Addr)
  | _, none => .ok none
  | 0, some _ => .error .diverged
  | fuel + 1, some out => do
    m.access out
    if m.hashv out = hashval ∧ (m.key out).length = key.length ∧ m.key out = key then
      return some out
    else hashFindInBkt m key hashval fuel (m.hh.next out)

def hashFindByhashvalue (fuel : Nat) (h : Hash) (key : Key) (hashval : UInt32) :
    Except Stop (Option Addr) :=
  match h.head with
  | none => .ok none
  | some _ => do
    let tbl ← h.table
    let b ← bucket tbl.buckets (hashToBkt hashval tbl.numBuckets)
    hashFindInBkt h.mem key hashval fuel b.hhHead

def hashFind (fuel : Nat) (h : Hash) (key : Key) : Except Stop (Option Addr) :=
  match h.head with
  | none => .ok none
  | some _ => hashFindByhashvalue fuel h key (hashFunction key)

end

/-! ## Deleting -/

/-- `tail` when `del` is taken out. -/
def tailWithout (m : Mem) (tail del : Addr) : Except Stop Addr :=
  if del = tail then deref (m.app.prev del) else .ok tail

/-- The branch of `HASH_DELETE_HH` for an element that is not the only one. -/
def hashUnlink (h : Hash) (tbl : UTHashTable) (del : Addr) : Except Stop Hash := do
  let m := h.mem
  let tail ← tailWithout m tbl.tail del
  let tbl := { tbl with tail }
  let head := if m.app.prev del = none then m.app.next del else h.head
  let m ← m.writeOf (m.app.prev del) (m.setNext · (m.app.next del))
  let m ← m.writeOf (m.app.next del) (m.setPrev · (m.app.prev del))
  let tbl ← Hash.table ⟨m, head, some tbl⟩
  let (m, tbl) ← hashDelInBkt m tbl (hashToBkt (m.hashv del) tbl.numBuckets) del
  return ⟨m, head, some { tbl with numItems := tbl.numItems - 1 }⟩

def hashDelete (h : Hash) (del : Addr) : Except Stop Hash := do
  h.mem.access del
  let tbl ← h.table
  if h.mem.app.prev del = none ∧ h.mem.app.next del = none then
    return ⟨h.mem, none, none⟩
  else hashUnlink h tbl del

/-! ## Going through the elements -/

/-- `(o) ? (o)->hh.next : NULL` -/
def nextOf (m : Mem) : Option Addr → Except Stop (Option Addr)
  | none => .ok none
  | some a => do
    m.access a
    return m.app.next a

/-- The loop of `HASH_ITER` from `el` on, `tmp` being the element behind it: the hash at its end,
and what the rounds of the body gave. -/
def hashIterFrom {β : Type} (body : Hash → Addr → Except Stop (Hash × β)) :
    Nat → Hash → Option Addr → Option Addr → Except Stop (Hash × List β)
  | _, h, none, _ => .ok (h, [])
  | 0, _, some _, _ => .error .diverged
  | fuel + 1, h, some el, tmp => do
    let (h, x) ← body h el
    let next ← nextOf h.mem tmp
    let (h, xs) ← hashIterFrom body fuel h tmp next
    return (h, x :: xs)

def hashIter {β : Type} (body : Hash → Addr → Except Stop (Hash × β)) (fuel : Nat) (h : Hash) :
    Except Stop (Hash × List β) := do
  let tmp ← nextOf h.mem h.head
  hashIterFrom body fuel h h.head tmp

/-! ## Counting and checking -/

def hashCount (h : Hash) : Except Stop UInt32 :=
  match h.head with
  | none => .ok 0
  | some _ => do
    let tbl ← h.table
    return tbl.numItems

/-- The two walks of `HASH_FSCK`: the back links against the way come, and the number of nodes. -/
def fsckWalk (m : Mem) (k : Links Addr) : Nat → Option Addr → UInt32 → Option Addr →
    Except Stop UInt32
  | _, _, count, none => .ok count
  | 0, _, _, some _ => .error .diverged
  | fuel + 1, prev, count, some thh => do
    m.access thh
    if prev ≠ k.prev thh then .error .oops
    else fsckWalk m k fuel (some thh) (count + 1) (k.next thh)

def fsckBucket (fuel : Nat) (m : Mem) (tbl : UTHashTable) (count : UInt32) (i : Nat) :
    Except Stop UInt32 := do
  let b ← bucket tbl.buckets i
  let bktCount ← fsckWalk m m.hh fuel none 0 b.hhHead
  if b.count ≠ bktCount then .error .oops else return count + bktCount

def hashFsck (fuel : Nat) (h : Hash) : Except Stop Unit :=
  match h.head with
  | none => .ok ()
  | some head => do
    let tbl ← h.table
    let count ← (List.range tbl.numBuckets.toNat).foldlM (fsckBucket fuel h.mem tbl) 0
    if count ≠ tbl.numItems then .error .oops
    else
      let count ← fsckWalk h.mem h.mem.app fuel none 0 (some head)
      if count ≠ tbl.numItems then .error .oops else return ()

end KoScripts.DataStruct.UtHash
