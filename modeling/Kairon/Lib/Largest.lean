/-
Kairon/Lib/Largest.lean

Bisection for the largest number that a test accepts, where the test may raise.

A test decides a property that goes on downwards, up to a limit, and raises beyond it
(`Decides`).  As long as the range is below the limit, bisection finds the largest number
(`search_within`).  A range that goes beyond the limit is safe only if a rejection cuts it off in
time: while everything is accepted, the numbers tried are `high - (high - low) / 2 ^ (k + 1)` for
k = 0, 1, .., and the search comes to an end exactly if one of them is within the limit and is
rejected (`search_beyond`).
-/
import Mathlib.Order.Bounds.Basic
import Mathlib.Data.Nat.Basic
import Mathlib.Algebra.Order.Group.Nat

namespace Kairon.Largest

variable {ε : Type} {test : ℕ → Except ε Bool}

/-- `while low < high`: the middle is rounded up, an accepted one is kept. -/
def search (test : ℕ → Except ε Bool) (low high : ℕ) : Except ε ℕ :=
  if low < high then
    match test ((low + high + 1) / 2) with
    | .error e => .error e
    | .ok true => search test ((low + high + 1) / 2) high
    | .ok false => search test low ((low + high + 1) / 2 - 1)
  else .ok low
termination_by high - low

section Steps

variable {low high : ℕ}

theorem search_done (h : ¬ low < high) : search test low high = .ok low := by
  rw [search, if_neg h]

theorem search_raises {e : ε} (h : low < high) (htest : test ((low + high + 1) / 2) = .error e) :
    search test low high = .error e := by
  rw [search, if_pos h, htest]

theorem search_accepts (h : low < high) (htest : test ((low + high + 1) / 2) = .ok true) :
    search test low high = search test ((low + high + 1) / 2) high := by
  rw [search, if_pos h, htest]

theorem search_rejects (h : low < high) (htest : test ((low + high + 1) / 2) = .ok false) :
    search test low high = search test low ((low + high + 1) / 2 - 1) := by
  rw [search, if_pos h, htest]

end Steps

/-- The test decides `P` for the numbers from 1 to the limit, and raises beyond it. -/
structure Decides (test : ℕ → Except ε Bool) (P : ℕ → Prop) (limit : ℕ) (e : ε) : Prop where
  accepts : ∀ n, 0 < n → n ≤ limit → P n → test n = .ok true
  rejects : ∀ n, 0 < n → n ≤ limit → ¬ P n → test n = .ok false
  raises : ∀ n, limit < n → test n = .error e
  downward : ∀ m n, m ≤ n → P n → P m

/-- The numbers of a range that may be returned. -/
def Admitted (test : ℕ → Except ε Bool) (high : ℕ) : Set ℕ :=
  {n | n ≤ high ∧ (n = 0 ∨ test n = .ok true)}

section

variable {P : ℕ → Prop} {limit : ℕ} {e : ε} {low high : ℕ}

/-- Within the limit the search returns the largest number with the property. -/
theorem search_within (hd : Decides test P limit e) (hle : low ≤ high) (hlimit : high ≤ limit)
    (hlow : low = 0 ∨ P low) :
    ∃ r, search test low high = .ok r ∧ r ≤ high ∧ (r = 0 ∨ P r) ∧
      ∀ n, r < n → n ≤ high → ¬ P n := by
  induction hsize : high - low using Nat.strong_induction_on generalizing low high with
  | h size ih =>
  by_cases hlt : low < high
  · have hmiddle : low < (low + high + 1) / 2 ∧ (low + high + 1) / 2 ≤ high := by omega
    by_cases hP : P ((low + high + 1) / 2)
    · rw [search_accepts hlt (hd.accepts _ (by omega) (by omega) hP)]
      exact ih _ (by omega) hmiddle.2 hlimit (.inr hP) rfl
    · rw [search_rejects hlt (hd.rejects _ (by omega) (by omega) hP)]
      obtain ⟨r, hr, hhigh, hkind, hlargest⟩ :=
        ih _ (by omega) (by omega : low ≤ (low + high + 1) / 2 - 1) (by omega) hlow rfl
      refine ⟨r, hr, by omega, hkind, fun n hn hnhigh hPn => ?_⟩
      by_cases hside : n ≤ (low + high + 1) / 2 - 1
      · exact hlargest n hn hside hPn
      · exact hP (hd.downward _ n (by omega) hPn)
  · exact ⟨low, search_done hlt, hle, hlow, fun n hn hnhigh => by omega⟩

/-- The number that is tried after `k` acceptances. -/
def probe (low high k : ℕ) : ℕ := high - (high - low) / 2 ^ (k + 1)

theorem probe_zero (h : low < high) : probe low high 0 = (low + high + 1) / 2 := by
  unfold probe
  rw [zero_add, pow_one]
  omega

theorem probe_succ (h : low < high) (k : ℕ) :
    probe low high (k + 1) = probe ((low + high + 1) / 2) high k := by
  have hhalf : high - (low + high + 1) / 2 = (high - low) / 2 := by omega
  unfold probe
  rw [hhalf, Nat.div_div_eq_div_mul, ← pow_succ']

/-- Beyond the limit the search ends exactly if a number that it tries is within the limit and is
rejected. -/
theorem search_beyond (hd : Decides test P limit e) (hlimit : limit < high) (hle : low ≤ limit)
    (hlow : low = 0 ∨ P low) :
    (∃ k, probe low high k ≤ limit ∧ ¬ P (probe low high k)) ∧
        (∃ r, search test low high = .ok r ∧ r ≤ limit ∧ (r = 0 ∨ P r) ∧
          ∀ n, r < n → n ≤ limit → ¬ P n) ∨
      (¬ ∃ k, probe low high k ≤ limit ∧ ¬ P (probe low high k)) ∧
        search test low high = .error e := by
  induction hsize : high - low using Nat.strong_induction_on generalizing low with
  | h size ih =>
  have hlt : low < high := by omega
  have hfirst := probe_zero hlt
  by_cases hmiddle : (low + high + 1) / 2 ≤ limit
  · by_cases hP : P ((low + high + 1) / 2)
    · -- accepted: the next numbers are those of the upper half
      have hnext : (∃ k, probe low high k ≤ limit ∧ ¬ P (probe low high k)) ↔
          ∃ k, probe ((low + high + 1) / 2) high k ≤ limit ∧
            ¬ P (probe ((low + high + 1) / 2) high k) := by
        constructor
        · rintro ⟨k, hk⟩
          rcases k with - | k
          · rw [hfirst] at hk
            exact absurd hP hk.2
          · rw [probe_succ hlt] at hk
            exact ⟨k, hk⟩
        · rintro ⟨k, hk⟩
          rw [← probe_succ hlt] at hk
          exact ⟨k + 1, hk⟩
      rw [search_accepts hlt (hd.accepts _ (by omega) hmiddle hP), hnext]
      exact ih _ (by omega) hmiddle (.inr hP) rfl
    · -- rejected: what is left is within the limit
      refine .inl ⟨⟨0, by rw [hfirst]; exact hmiddle, by rw [hfirst]; exact hP⟩, ?_⟩
      rw [search_rejects hlt (hd.rejects _ (by omega) hmiddle hP)]
      obtain ⟨r, hr, hhigh, hkind, hlargest⟩ := search_within hd
        (by omega : low ≤ (low + high + 1) / 2 - 1) (by omega) hlow
      refine ⟨r, hr, by omega, hkind, fun n hn _ hPn => ?_⟩
      by_cases hside : n ≤ (low + high + 1) / 2 - 1
      · exact hlargest n hn hside hPn
      · exact hP (hd.downward _ n (by omega) hPn)
  · refine .inr ⟨?_, search_raises hlt (hd.raises _ (by omega))⟩
    -- no later number is smaller than the first one
    rintro ⟨k, hk, -⟩
    have hle' : (high - low) / 2 ^ (k + 1) ≤ (high - low) / 2 :=
      Nat.div_le_div_left (Nat.le_self_pow (Nat.succ_ne_zero k) 2) (by decide)
    unfold probe at hk
    omega

/-- What the search returns is the largest number of the range. -/
theorem isGreatest_admitted (hd : Decides test P limit e) {r : ℕ} (hr : r ≤ high)
    (hkind : r = 0 ∨ r ≤ limit ∧ P r)
    (hlargest : ∀ n, r < n → n ≤ high → n ≤ limit → ¬ P n) :
    IsGreatest (Admitted test high) r := by
  refine ⟨⟨hr, ?_⟩, fun n hn => ?_⟩
  · obtain hzero | ⟨hlimit, hP⟩ := hkind
    · exact .inl hzero
    · obtain hzero | hpos := Nat.eq_zero_or_pos r
      · exact .inl hzero
      · exact .inr (hd.accepts r hpos hlimit hP)
  · obtain ⟨hhigh, hzero | haccepted⟩ := hn
    · omega
    · by_contra hlt
      have hlimit : n ≤ limit := by
        by_contra hbeyond
        rw [hd.raises n (by omega)] at haccepted
        cases haccepted
      rw [hd.rejects n (by omega) hlimit (hlargest n (by omega) hhigh hlimit)] at haccepted
      cases haccepted

/-- The search from zero returns the largest number of the range exactly if the range is within
the limit or a rejection brings it there. -/
theorem search_greatest_iff (hd : Decides test P limit e) :
    (∃ r, search test 0 high = .ok r ∧ IsGreatest (Admitted test high) r) ↔
      high ≤ limit ∨ ∃ k, probe 0 high k ≤ limit ∧ ¬ P (probe 0 high k) := by
  by_cases hlimit : high ≤ limit
  · refine iff_of_true ?_ (.inl hlimit)
    obtain ⟨r, hr, hhigh, hkind, hlargest⟩ :=
      search_within hd (Nat.zero_le high) hlimit (.inl rfl)
    refine ⟨r, hr, isGreatest_admitted hd hhigh ?_ fun n hn hnhigh _ => hlargest n hn hnhigh⟩
    exact hkind.imp_right fun hP => ⟨by omega, hP⟩
  · rw [or_iff_right hlimit]
    obtain ⟨hcut, r, hr, hhigh, hkind, hlargest⟩ | ⟨hcut, hraises⟩ :=
      search_beyond hd (not_le.1 hlimit) (Nat.zero_le limit) (.inl rfl)
    · refine iff_of_true ⟨r, hr, ?_⟩ hcut
      refine isGreatest_admitted hd (by omega) ?_ fun n hn _ hnlimit => hlargest n hn hnlimit
      exact hkind.imp_right fun hP => ⟨hhigh, hP⟩
    · refine iff_of_false ?_ hcut
      rintro ⟨r, hr, -⟩
      rw [hraises] at hr
      cases hr

end

end Kairon.Largest
