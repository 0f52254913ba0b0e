import Mathlib.Data.UInt
import Mathlib.NumberTheory.LucasPrimality
import Mathlib.Tactic.NormNum.Prime
import Mathlib.Tactic.ReduceModChar
import KoScripts.Servers.UvPrime

/-! # isprime in wrapping arithmetic

While the loop runs, no divisor of `n` but 1 is below `r`. The product `r * r` may wrap, but it
never exceeds the square of `r`, so that the loop is right to leave when it is greater than `n`.
What remains is that it does leave before `r` comes to a prime `n`: below `(2^32-1)^2` by its own
test, and from there on because the square of an odd number wraps to `2^64 - 7`. It is then that
the test no longer says what it says on paper. -/

namespace KoScripts.Servers.UvPrime

variable {n r : UInt64} {fuel : Nat}

theorem toNat_mul_self_le (r : UInt64) : (r * r).toNat ≤ r.toNat ^ 2 := by
  rw [UInt64.toNat_mul, Nat.pow_two]
  exact Nat.mod_le _ _

theorem toNat_mul_self (h : r.toNat < 2 ^ 32) : (r * r).toNat = r.toNat ^ 2 := by
  rw [UInt64.toNat_mul, ← Nat.pow_two]
  exact Nat.mod_eq_of_lt (Nat.pow_lt_pow_left h (by decide))

theorem toNat_add_two (h : r.toNat + 2 < 2 ^ 64) : (r + 2).toNat = r.toNat + 2 := by
  rw [UInt64.toNat_add]
  exact Nat.mod_eq_of_lt h

theorem mod_eq_zero_iff : n % r = 0 ↔ r.toNat ∣ n.toNat := by
  rw [← UInt64.toNat_inj, UInt64.toNat_mod, Nat.dvd_iff_mod_eq_zero]
  rfl

theorem odd_of_mod_two (h : ¬n % 2 = 0) : n.toNat % 2 = 1 := by
  have hdvd : ¬2 ∣ n.toNat := fun hd => h (mod_eq_zero_iff.mpr hd)
  omega

/-- `r` is the variable of a round of the loop that has found no divisor. -/
structure Trial (n r : UInt64) : Prop where
  odd : n.toNat % 2 = 1
  three : 3 ≤ n.toNat
  rOdd : r.toNat % 2 = 1
  le : r.toNat ≤ n.toNat.minFac

theorem Trial.first (hn : ¬n % 2 = 0) (h : 3 ≤ n.toNat) : Trial n 3 where
  odd := odd_of_mod_two hn
  three := h
  rOdd := rfl
  le := by
    show 3 ≤ n.toNat.minFac
    have hodd := odd_of_mod_two hn
    have htwo : 2 ≤ n.toNat.minFac := (Nat.minFac_prime (by omega)).two_le
    have hne : n.toNat.minFac ≠ 2 := fun hc => by
      have hd := Nat.minFac_dvd n.toNat
      rw [hc] at hd
      omega
    omega

theorem Trial.two_le (h : Trial n r) : 2 ≤ n.toNat.minFac :=
  (Nat.minFac_prime (by have := h.three; omega)).two_le

/-- A divisor found is the least. -/
theorem Trial.eq_minFac (h : Trial n r) (hr : 3 ≤ r.toNat) (hd : n % r = 0) :
    r.toNat = n.toNat.minFac :=
  Nat.le_antisymm h.le (Nat.minFac_le_of_dvd (by omega) (mod_eq_zero_iff.mp hd))

/-- The least divisor of an odd number is odd. -/
theorem minFac_odd (h : n.toNat % 2 = 1) : n.toNat.minFac % 2 = 1 := by
  by_contra hc
  have htwo : 2 ∣ n.toNat := Nat.dvd_trans (by omega) n.toNat.minFac_dvd
  omega

theorem Trial.succ_lt (h : Trial n r) (hd : ¬n % r = 0) : r.toNat + 2 ≤ n.toNat.minFac := by
  have hdvd := Nat.minFac_dvd n.toNat
  have hne : r.toNat ≠ n.toNat.minFac := fun hc => hd (mod_eq_zero_iff.mpr (hc ▸ hdvd))
  have := minFac_odd h.odd
  have := h.le
  have := h.rOdd
  omega

theorem Trial.next_toNat (h : Trial n r) (hd : ¬n % r = 0) : (r + 2).toNat = r.toNat + 2 := by
  have hle := Nat.minFac_le (n := n.toNat) (by have := h.three; omega)
  have hlt := n.toNat_lt
  have := h.succ_lt hd
  exact toNat_add_two (by omega)

theorem Trial.next (h : Trial n r) (hd : ¬n % r = 0) : Trial n (r + 2) where
  odd := h.odd
  three := h.three
  rOdd := by
    have := h.rOdd
    rw [h.next_toNat hd]
    omega
  le := by
    rw [h.next_toNat hd]
    exact h.succ_lt hd

/-- The loop is right to leave when the product is greater than `n`, wrapped or not. -/
theorem Trial.prime (h : Trial n r) (hlt : ¬r * r ≤ n) : n.toNat.Prime := by
  by_contra hp
  have hsq := Nat.minFac_sq_le_self (by have := h.three; omega) hp
  have hle := Nat.pow_le_pow_left h.le 2
  have hmul := toNat_mul_self_le r
  rw [UInt64.le_iff_toNat_le] at hlt
  omega

theorem prime_of_isprimeLoop (h : Trial n r) (hl : isprimeLoop n fuel r = some true) :
    n.toNat.Prime := by
  induction fuel generalizing r with
  | zero => cases hl
  | succ fuel ih =>
    rw [isprimeLoop] at hl
    split at hl
    · split at hl
      · cases hl
      · next hd => exact ih (h.next hd) hl
    · next hlt => exact h.prime hlt

/-- For a prime `n` the loop leaves no later than at an odd `q` whose product is greater. -/
theorem isprimeLoop_ne_false {q : UInt64} (hp : n.toNat.Prime) (h : Trial n r)
    (hr : 3 ≤ r.toNat) (hrq : r.toNat ≤ q.toNat) (hqn : q.toNat ≤ n.toNat)
    (hq : q.toNat % 2 = 1) (hlt : ¬q * q ≤ n) : isprimeLoop n fuel r ≠ some false := by
  induction fuel generalizing r with
  | zero =>
    intro h
    cases h
  | succ fuel ih =>
    rw [isprimeLoop]
    split
    · next hle =>
      have hne : r.toNat ≠ q.toNat := fun hc => hlt (UInt64.toNat_inj.mp hc ▸ hle)
      have hd : ¬n % r = 0 := fun hc => by
        have := h.eq_minFac hr hc
        rw [hp.minFac_eq] at this
        omega
      rw [if_neg hd]
      have hnext := h.next_toNat hd
      have := h.rOdd
      exact ih (h.next hd) (by omega) (by omega)
    · intro h
      cases h

/-- Its square is `2^64 - 7` modulo `2^64`. -/
def rootOfMinusSeven : UInt64 := 1852311383259529397

/-- The numbers from `2^64 - 7` on are composite. -/
theorem lt_of_prime (hp : n.toNat.Prime) : n.toNat < 2 ^ 64 - 7 := by
  by_contra hge
  have hlt := n.toNat_lt
  obtain ⟨d, hd, hdn⟩ : ∃ d, (d = 2 ∨ d = 3 ∨ d = 11 ∨ d = 13) ∧ d ∣ n.toNat := by
    by_cases htwo : 2 ∣ n.toNat
    · exact ⟨2, .inl rfl, htwo⟩
    have hcases : n.toNat = 2 ^ 64 - 7 ∨ n.toNat = 2 ^ 64 - 5 ∨ n.toNat = 2 ^ 64 - 3 ∨
        n.toNat = 2 ^ 64 - 1 := by omega
    rcases hcases with h | h | h | h <;> rw [h]
    · exact ⟨3, by simp, by decide⟩
    · exact ⟨11, by simp, by decide⟩
    · exact ⟨13, by simp, by decide⟩
    · exact ⟨3, by simp, by decide⟩
  rcases (Nat.dvd_prime hp).mp hdn with h | h
  · omega
  · omega

/-- An odd number not above a prime `n` at which the test is met. -/
theorem exists_leaving (hp : n.toNat.Prime) (h : Trial n 3) :
    ∃ q : UInt64, 3 ≤ q.toNat ∧ q.toNat ≤ n.toNat ∧ q.toNat % 2 = 1 ∧ ¬q * q ≤ n := by
  have hthree := h.three
  rcases Nat.lt_or_ge n.toNat (2 ^ 32) with hn | hn
  · refine ⟨n, hthree, Nat.le_refl _, h.odd, ?_⟩
    rw [UInt64.le_iff_toNat_le, toNat_mul_self hn]
    nlinarith
  rcases Nat.lt_or_ge n.toNat ((2 ^ 32 - 1) ^ 2) with hn' | hn'
  · refine ⟨4294967295, by decide, ?_, rfl, ?_⟩
    · show 4294967295 ≤ n.toNat
      omega
    · rw [UInt64.le_iff_toNat_le]
      show ¬18446744065119617025 ≤ n.toNat
      omega
  · refine ⟨rootOfMinusSeven, by decide, ?_, by decide, ?_⟩
    · show 1852311383259529397 ≤ n.toNat
      omega
    · rw [UInt64.le_iff_toNat_le]
      show ¬18446744073709551609 ≤ n.toNat
      have := lt_of_prime hp
      omega

theorem isprime_odd (hn : ¬n % 2 = 0) (h : 3 ≤ n.toNat) : isprime n = true ↔ n.toNat.Prime := by
  have htrial := Trial.first hn h
  have hsome : some (isprime n) = isprimeLoop n n.toNat 3 := by
    rw [isprime, dif_neg hn, Option.some_get]
  constructor
  · intro hb
    rw [hb] at hsome
    exact prime_of_isprimeLoop htrial hsome.symm
  · intro hp
    obtain ⟨q, hq, hqn, hodd, hlt⟩ := exists_leaving hp htrial
    cases hb : isprime n with
    | true => rfl
    | false =>
      rw [hb] at hsome
      exact absurd hsome.symm
        (isprimeLoop_ne_false hp htrial (Nat.le_refl _) hq hqn hodd hlt)

theorem isprime_even (hn : n % 2 = 0) : isprime n = true ↔ n.toNat.Prime := by
  have hd : 2 ∣ n.toNat := mod_eq_zero_iff.mp hn
  rw [isprime, dif_pos hn, beq_iff_eq, ← UInt64.toNat_inj]
  constructor
  · intro htwo
    rw [htwo]
    exact Nat.prime_two
  · intro hp
    exact ((Nat.prime_dvd_prime_iff_eq Nat.prime_two hp).mp hd).symm

/-- `isprime` counts 1 as a prime. -/
theorem isprime_iff (n : UInt64) : isprime n = true ↔ n = 1 ∨ n.toNat.Prime := by
  by_cases hn : n % 2 = 0
  · rw [isprime_even hn]
    refine ⟨.inr, ?_⟩
    rintro (rfl | hp)
    · cases hn
    · exact hp
  · have hodd := odd_of_mod_two hn
    rcases Nat.lt_or_ge n.toNat 3 with h | h
    · obtain rfl : n = 1 := UInt64.toNat_inj.mp (show n.toNat = 1 by omega)
      exact iff_of_true (by decide) (.inl rfl)
    · rw [isprime_odd hn h]
      refine ⟨.inr, ?_⟩
      rintro (rfl | hp)
      · exact absurd h (by decide)
      · exact hp

/-- A number without a prime's properties is 0, 1 or has a proper divisor. -/
theorem not_prime_iff (n : Nat) : ¬(n = 1 ∨ n.Prime) ↔ n = 0 ∨ ∃ d, 1 < d ∧ d < n ∧ d ∣ n := by
  constructor
  · intro h
    rw [not_or] at h
    obtain ⟨hone, hp⟩ := h
    rcases Nat.eq_zero_or_pos n with h0 | hpos
    · exact .inl h0
    · refine .inr ⟨n.minFac, (Nat.minFac_prime hone).one_lt, ?_, n.minFac_dvd⟩
      exact (Nat.not_prime_iff_minFac_lt (by omega)).mp hp
  · rintro (rfl | ⟨d, hd, hlt, hdvd⟩) (h | h)
    · cases h
    · exact Nat.not_prime_zero h
    · omega
    · rcases (Nat.dvd_prime h).mp hdvd with h' | h'
      · omega
      · omega

/-- For every 64-bit number the loop ends, and `isprime` says no of 0 and of the composite ones
only, also where `r * r` wraps. -/
theorem isprime_eq_false_iff (n : UInt64) :
    (¬n % 2 = 0 → ∃ rounds, isprimeLoop n rounds 3 = some (isprime n)) ∧
      (isprime n = false ↔ n = 0 ∨ ∃ d, 1 < d ∧ d < n.toNat ∧ d ∣ n.toNat) := by
  constructor
  · intro hn
    refine ⟨n.toNat, ?_⟩
    rw [isprime, dif_neg hn, Option.some_get]
  · have hone : n = 1 ↔ n.toNat = 1 := UInt64.toNat_inj.symm
    have hzero : n = 0 ↔ n.toNat = 0 := UInt64.toNat_inj.symm
    rw [← Bool.not_eq_true, isprime_iff, hone, hzero]
    exact not_prime_iff n.toNat

/-! ## The rounds of the loop -/

/-- The `r` for which `r * r <= n` is evaluated in the first `rounds` rounds from `r` on. -/
def isprimeRounds (n : UInt64) : Nat → UInt64 → List UInt64
  | 0, _ => []
  | rounds + 1, r =>
    r :: if r * r ≤ n ∧ ¬n % r = 0 then isprimeRounds n rounds (r + 2) else []

/-- The `r` of a call of `isprime`, which does not come to the loop for an even number. -/
def evaluated (n : UInt64) (rounds : Nat) : List UInt64 :=
  if n % 2 = 0 then [] else isprimeRounds n rounds 3

/-- The rounds of a loop that never goes on at `m`, an odd number. -/
theorem isprimeRounds_le {m : Nat} (rounds : Nat) (hm : m + 2 < 2 ^ 64)
    (hstop : ∀ r : UInt64, r.toNat % 2 = 1 → r.toNat ≤ m → r * r ≤ n → ¬n % r = 0 → r.toNat + 2 ≤ m)
    (hodd : r.toNat % 2 = 1) (hr : r.toNat ≤ m) :
    (∀ q ∈ isprimeRounds n rounds r, q.toNat ≤ m) ∧
      r.toNat + 2 * (isprimeRounds n rounds r).length ≤ m + 2 := by
  induction rounds generalizing r with
  | zero => exact ⟨by simp [isprimeRounds], by simpa [isprimeRounds] using by omega⟩
  | succ rounds ih =>
    rw [isprimeRounds]
    split
    · next hgo =>
      have hnext := hstop r hodd hr hgo.1 hgo.2
      have hadd : (r + 2).toNat = r.toNat + 2 := toNat_add_two (by omega)
      obtain ⟨hmem, hlen⟩ := ih (r := r + 2) (by omega) (by omega)
      constructor
      · intro q hq
        rcases List.mem_cons.mp hq with rfl | hq
        · exact hr
        · exact hmem q hq
      · rw [List.length_cons]
        omega
    · constructor
      · intro q hq
        rw [List.mem_singleton.mp hq]
        exact hr
      · simp only [List.length_singleton]
        omega

/-- The first odd number greater than the square root of `n`. -/
def firstBeyond (n : Nat) : Nat := n.sqrt + 1 + n.sqrt % 2

/-- Where the square of `firstBeyond` does not wrap, the loop leaves there. -/
theorem go_le_firstBeyond (h : n.toNat < (2 ^ 32 - 1) ^ 2) (hodd : r.toNat % 2 = 1)
    (hr : r.toNat ≤ firstBeyond n.toNat) (hle : r * r ≤ n) :
    r.toNat + 2 ≤ firstBeyond n.toNat := by
  have hsqrt : n.toNat.sqrt < 2 ^ 32 - 1 := Nat.sqrt_lt'.mpr h
  unfold firstBeyond at *
  rw [UInt64.le_iff_toNat_le, toNat_mul_self (by omega), Nat.pow_two] at hle
  have hroot := Nat.le_sqrt.mpr hle
  omega

/-- The loop as it is meant, "iterating all the way to sqrt(n)": no square wraps, it goes at most to
the first odd number beyond the square root, and it has at most `2^31` rounds. -/
def Bounded (n : UInt64) : Prop :=
  ∀ rounds, (∀ r ∈ evaluated n rounds, r.toNat ^ 2 < 2 ^ 64 ∧ r.toNat ≤ firstBeyond n.toNat) ∧
    (evaluated n rounds).length ≤ 2 ^ 31

theorem bounded_of_even (hn : n % 2 = 0) : Bounded n := by
  intro rounds
  rw [evaluated, if_pos hn]
  constructor
  · intro r hr
    cases hr
  · exact Nat.zero_le _

/-- A bound below `2^32` at which the loop stops bounds the whole call. -/
theorem bounded_of_stop {m : Nat} (hm : m < 2 ^ 32) (hthree : 3 ≤ m)
    (hbeyond : m ≤ firstBeyond n.toNat)
    (hstop : ∀ r : UInt64, r.toNat % 2 = 1 → r.toNat ≤ m → r * r ≤ n → ¬n % r = 0 →
      r.toNat + 2 ≤ m) :
    Bounded n := by
  intro rounds
  rw [evaluated]
  split
  · simp
  · obtain ⟨hmem, hlen⟩ := isprimeRounds_le rounds (by omega) hstop
      (show (3 : UInt64).toNat % 2 = 1 from rfl) hthree
    constructor
    · intro r hr
      have hle := hmem r hr
      exact ⟨Nat.pow_lt_pow_left (show r.toNat < 2 ^ 32 by omega) (by decide), by omega⟩
    · omega

theorem bounded_of_small (h : n.toNat < (2 ^ 32 - 1) ^ 2) : Bounded n := by
  by_cases hn : n % 2 = 0
  · exact bounded_of_even hn
  · have hodd := odd_of_mod_two hn
    have hsqrt : n.toNat.sqrt < 2 ^ 32 - 1 := Nat.sqrt_lt'.mpr h
    have hpos : 0 < n.toNat.sqrt := Nat.sqrt_pos.mpr (by omega)
    have hm : firstBeyond n.toNat < 2 ^ 32 ∧ 3 ≤ firstBeyond n.toNat := by
      unfold firstBeyond
      omega
    exact bounded_of_stop hm.1 hm.2 (Nat.le_refl _)
      fun r hr hle hsq _ => go_le_firstBeyond h hr hle hsq

/-- For a composite number the loop ends at its least divisor. -/
theorem bounded_of_not_prime (hp : ¬n.toNat.Prime) : Bounded n := by
  by_cases hn : n % 2 = 0
  · exact bounded_of_even hn
  rcases Nat.lt_or_ge n.toNat 3 with h | h
  · exact bounded_of_small (by omega)
  have hodd := odd_of_mod_two hn
  have hmin := minFac_odd hodd
  have hsqrt : n.toNat.minFac ≤ n.toNat.sqrt :=
    Nat.le_sqrt'.mpr (Nat.minFac_sq_le_self (by omega) hp)
  have hlt : n.toNat.sqrt < 2 ^ 32 := Nat.sqrt_lt'.mpr n.toNat_lt
  have hthree : 3 ≤ n.toNat.minFac := (Trial.first hn h).le
  have hbeyond : n.toNat.sqrt + 1 ≤ firstBeyond n.toNat := Nat.le_add_right _ _
  apply bounded_of_stop (m := n.toNat.minFac)
  · omega
  · exact hthree
  · omega
  · intro r hr hle _ hd
    have hne : r.toNat ≠ n.toNat.minFac := fun hc =>
      hd (mod_eq_zero_iff.mpr (hc ▸ n.toNat.minFac_dvd))
    omega

/-- The first odd number with a square that wraps. -/
def firstWrapping : UInt64 := 4294967297

/-- A large prime keeps the loop going as far as `firstWrapping`. -/
theorem firstWrapping_mem_rounds (hp : n.toNat.Prime) (hn : (2 ^ 32 - 1) ^ 2 ≤ n.toNat)
    {rounds : Nat} (hthree : 3 ≤ r.toNat) (hodd : r.toNat % 2 = 1) (hle : r.toNat ≤ 4294967297)
    (hrounds : 4294967297 < r.toNat + 2 * rounds) : firstWrapping ∈ isprimeRounds n rounds r := by
  induction rounds generalizing r with
  | zero => omega
  | succ rounds ih =>
    rw [isprimeRounds]
    rcases Nat.eq_or_lt_of_le hle with heq | hlt
    · exact List.mem_cons.mpr (.inl (UInt64.toNat_inj.mp heq.symm))
    · have hsq : r * r ≤ n := by
        have hpow : r.toNat ^ 2 ≤ (2 ^ 32 - 1) ^ 2 := Nat.pow_le_pow_left (by omega) 2
        rw [UInt64.le_iff_toNat_le]
        exact (toNat_mul_self_le r).trans (hpow.trans hn)
      have hd : ¬n % r = 0 := fun hc => by
        rcases (Nat.dvd_prime hp).mp (mod_eq_zero_iff.mp hc) with h | h
        · omega
        · omega
      have hadd : (r + 2).toNat = r.toNat + 2 := toNat_add_two (by omega)
      rw [if_pos ⟨hsq, hd⟩]
      exact List.mem_cons_of_mem _ (ih (by omega) (by omega) (by omega) (by omega))

theorem firstWrapping_mem (hp : n.toNat.Prime) (hn : (2 ^ 32 - 1) ^ 2 ≤ n.toNat) :
    firstWrapping ∈ evaluated n (2 ^ 31) := by
  have hodd : ¬n % 2 = 0 := fun hc => by
    have := (Nat.prime_dvd_prime_iff_eq Nat.prime_two hp).mp (mod_eq_zero_iff.mp hc)
    omega
  rw [evaluated, if_neg hodd]
  exact firstWrapping_mem_rounds hp hn (by decide) (by decide) (by decide) (by decide)

/-- The loop of `isprime` is bounded for all numbers but the primes from `(2^32-1)^2` on. -/
theorem bounded_iff (n : UInt64) : Bounded n ↔ n.toNat < (2 ^ 32 - 1) ^ 2 ∨ ¬n.toNat.Prime := by
  constructor
  · intro h
    by_contra hc
    rw [not_or, not_not, Nat.not_lt] at hc
    have hmem := firstWrapping_mem hc.2 hc.1
    exact absurd ((h (2 ^ 31)).1 firstWrapping hmem).1 (by decide)
  · rintro (h | h)
    · exact bounded_of_small h
    · exact bounded_of_not_prime h

/-- The prime `2^64 - 2^32 + 1`. -/
def largePrime : UInt64 := 18446744069414584321

/-- Its predecessor is `2^32` times the first five Fermat primes. -/
theorem eq_of_dvd_pred {q : Nat} (hq : q.Prime) (hd : q ∣ 18446744069414584321 - 1) :
    q = 2 ∨ q = 3 ∨ q = 5 ∨ q = 17 ∨ q = 257 ∨ q = 65537 := by
  have hfac : 18446744069414584321 - 1 = 2 ^ 32 * (3 * (5 * (17 * (257 * 65537)))) := by norm_num
  have of_dvd {p : Nat} (hp : p.Prime) (h : q ∣ p) : q = p :=
    (Nat.prime_dvd_prime_iff_eq hq hp).mp h
  rw [hfac, hq.dvd_mul, hq.dvd_mul, hq.dvd_mul, hq.dvd_mul, hq.dvd_mul] at hd
  rcases hd with h | h | h | h | h | h
  · exact .inl (of_dvd Nat.prime_two (hq.dvd_of_dvd_pow h))
  · exact .inr (.inl (of_dvd Nat.prime_three h))
  · exact .inr (.inr (.inl (of_dvd Nat.prime_five h)))
  · exact .inr (.inr (.inr (.inl (of_dvd (by norm_num) h))))
  · exact .inr (.inr (.inr (.inr (.inl (of_dvd (by norm_num) h)))))
  · exact .inr (.inr (.inr (.inr (.inr (of_dvd (by norm_num) h)))))

/-- By Lucas' test, with 7 as the generator. -/
theorem largePrime_prime : largePrime.toNat.Prime := by
  show Nat.Prime 18446744069414584321
  apply lucas_primality _ (7 : ZMod 18446744069414584321)
  · norm_num1
    reduce_mod_char
  · intro q hq hd
    rcases eq_of_dvd_pred hq hd with rfl | rfl | rfl | rfl | rfl | rfl
    all_goals
      norm_num1
      reduce_mod_char
      decide

/-- The loop evaluates the square of `2^32 + 1`, which is `2^33 + 1` in 64 bits. -/
theorem not_bounded_largePrime :
    firstWrapping ∈ evaluated largePrime (2 ^ 31) ∧ firstWrapping * firstWrapping = 2 ^ 33 + 1 ∧
      ¬Bounded largePrime := by
  have hmem := firstWrapping_mem largePrime_prime (by decide)
  refine ⟨hmem, by decide, ?_⟩
  intro h
  exact absurd ((h (2 ^ 31)).1 firstWrapping hmem).1 (by decide)

end KoScripts.Servers.UvPrime
