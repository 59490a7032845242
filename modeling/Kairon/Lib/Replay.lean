/-
Kairon/Lib/Replay.lean

A bounded memory of what has been seen, as a guard against replays.

Every key carries a time stamp, and a key is looked at only while its stamp lies in a
window around the clock.  The memory is a queue: the oldest keys are dropped when their
stamps have expired (and only from the front, so a key that is still good holds back
those behind it), and one more is dropped when the queue is too long.  The first kind
of dropping is harmless if the lifetime covers the window; the second is not, unless
the key that goes is out of the window already (`Room`).  `remembers_offer` is the step
of the invariant `Remembers`, and `not_mem_of_taken` says what it is good for.
-/
import Mathlib

namespace Kairon.Replay

variable {κ : Type} (stamp : κ → ℤ)

/-- Drop the oldest keys as long as they have expired. -/
def evict (cutoff : ℤ) (entries : List κ) : List κ :=
  entries.dropWhile fun key => stamp key < cutoff

/-- Append a key, and drop the oldest one if there are too many. -/
def store (capacity : ℕ) (entries : List κ) (key : κ) : List κ :=
  if entries.length + 1 > capacity then (entries ++ [key]).tail else entries ++ [key]

/-- Whether a key is new, and the queue afterwards. -/
def offer [DecidableEq κ] (lifetime : ℤ) (capacity : ℕ) (now : ℤ) (key : κ)
    (entries : List κ) : Bool × List κ :=
  let live := evict stamp (now - lifetime) entries
  if key ∈ live then (false, live) else (true, store capacity live key)

/-- The key that would have to go for a new one is out of the window. -/
def Room (lifetime window : ℤ) (capacity : ℕ) (now : ℤ) (entries : List κ) : Prop :=
  let live := evict stamp (now - lifetime) entries
  live.length < capacity ∨ ∀ oldest ∈ live.head?, stamp oldest < now - window

/-- Every key that was taken and could come again is in the queue. -/
def Remembers (window now : ℤ) (taken entries : List κ) : Prop :=
  ∀ key ∈ taken, now - window ≤ stamp key → key ∈ entries

variable {stamp} {lifetime window now now' : ℤ} {capacity : ℕ} {taken entries : List κ} {key : κ}

theorem Remembers.later (h : Remembers stamp window now taken entries) (hle : now ≤ now') :
    Remembers stamp window now' taken entries :=
  fun key hkey hstamp => h key hkey (by omega)

theorem mem_evict {cutoff : ℤ} (hkey : key ∈ entries) (hstamp : cutoff ≤ stamp key) :
    key ∈ evict stamp cutoff entries := by
  induction entries with
  | nil => exact hkey
  | cons first entries ih =>
    rw [evict, List.dropWhile_cons]
    split_ifs with hexpired
    · rcases List.mem_cons.1 hkey with rfl | hrest
      · exact absurd (of_decide_eq_true hexpired) (by omega)
      · exact ih hrest
    · exact hkey

/-- What has expired is out of the window. -/
theorem Remembers.evict (h : Remembers stamp window now taken entries)
    (hwindow : window ≤ lifetime) :
    Remembers stamp window now taken (Replay.evict stamp (now - lifetime) entries) :=
  fun key hkey hstamp => mem_evict (h key hkey hstamp) (by omega)

/-- What has to go for a new key is out of the window. -/
theorem Remembers.store (h : Remembers stamp window now taken entries) (hcapacity : 0 < capacity)
    (hroom : entries.length < capacity ∨ ∀ oldest ∈ entries.head?, stamp oldest < now - window) :
    Remembers stamp window now (key :: taken) (Replay.store capacity entries key) := by
  intro other hother hstamp
  have hmem : other ∈ entries ++ [key] := by
    rcases List.mem_cons.1 hother with rfl | hold
    · exact List.mem_append_right _ (.head _)
    · exact List.mem_append_left _ (h other hold hstamp)
  rw [Replay.store]
  split_ifs with hfull
  · have hout := hroom.resolve_left (by omega)
    rcases entries with - | ⟨oldest, rest⟩
    · rw [List.length_nil] at hfull
      omega
    · rw [List.cons_append] at hmem ⊢
      rw [List.tail_cons]
      rcases List.mem_cons.1 hmem with rfl | hrest
      · have := hout other rfl
        omega
      · exact hrest
  · exact hmem

theorem evict_of_live {cutoff : ℤ} (h : ∀ key ∈ entries, cutoff ≤ stamp key) :
    evict stamp cutoff entries = entries := by
  rcases entries with - | ⟨oldest, entries⟩
  · rfl
  · exact List.dropWhile_cons_of_neg fun hexpired =>
      absurd (of_decide_eq_true hexpired) (not_lt.2 (h oldest (.head _)))

theorem store_eq_drop (h : entries.length ≤ capacity) : Replay.store capacity entries key =
      (entries ++ [key]).drop ((entries ++ [key]).length - capacity) := by
  rw [Replay.store, List.length_append, List.length_singleton]
  split_ifs with hfull
  · rw [← List.drop_one, show entries.length + 1 - capacity = 1 by omega]
  · rw [show entries.length + 1 - capacity = 0 by omega, List.drop_zero]

/-- Without expiry the queue holds the last keys that came. -/
theorem foldl_store {keys : List κ} (h : entries.length ≤ capacity) :
    keys.foldl (Replay.store capacity) entries =
      (entries ++ keys).drop ((entries ++ keys).length - capacity) := by
  induction keys generalizing entries with
  | nil =>
    rw [List.append_nil, show entries.length - capacity = 0 by omega]
    rfl
  | cons key keys ih =>
    have hlength : (Replay.store capacity entries key).length ≤ capacity := by
      rw [store_eq_drop h, List.length_drop]
      omega
    rw [List.foldl_cons, ih hlength, store_eq_drop h, ← List.drop_append_of_le_length (by omega),
      List.drop_drop, List.append_assoc, List.singleton_append, List.length_drop]
    congr 1
    simp only [List.length_append, List.length_cons, List.length_nil]
    omega

variable [DecidableEq κ]

theorem offer_of_mem (h : key ∈ evict stamp (now - lifetime) entries) :
    offer stamp lifetime capacity now key entries =
      (false, evict stamp (now - lifetime) entries) := if_pos h

theorem offer_of_notMem (h : key ∉ evict stamp (now - lifetime) entries) :
    offer stamp lifetime capacity now key entries =
      (true, store capacity (evict stamp (now - lifetime) entries) key) := if_neg h

/-- What the queue does not hold is new. -/
theorem offer_fresh (h : key ∉ entries) : (offer stamp lifetime capacity now key entries).1 = true := by
  rw [offer_of_notMem fun hkey => h ((List.dropWhile_sublist _).subset hkey)]

/-- The queue holds nothing but what it held and what it took. -/
theorem mem_offer {other : κ} (h : other ∈ (offer stamp lifetime capacity now key entries).2) :
    other ∈ entries ∨ (offer stamp lifetime capacity now key entries).1 = true ∧ other = key := by
  by_cases hkey : key ∈ evict stamp (now - lifetime) entries
  · rw [offer_of_mem hkey] at h
    exact .inl ((List.dropWhile_sublist _).subset h)
  · rw [offer_of_notMem hkey] at h ⊢
    have hmem : other ∈ evict stamp (now - lifetime) entries ++ [key] := by
      rw [Replay.store] at h
      split_ifs at h
      · exact List.mem_of_mem_tail h
      · exact h
    rcases List.mem_append.1 hmem with hold | hnew
    · exact .inl ((List.dropWhile_sublist _).subset hold)
    · exact .inr ⟨rfl, List.mem_singleton.1 hnew⟩

/-- **The queue remembers what it takes, as long as it has room.** -/
theorem remembers_offer (h : Remembers stamp window now taken entries)
    (hwindow : window ≤ lifetime) (hcapacity : 0 < capacity)
    (hroom : key ∈ evict stamp (now - lifetime) entries ∨
      Room stamp lifetime window capacity now entries) :
    Remembers stamp window now
      (if (offer stamp lifetime capacity now key entries).1 then key :: taken else taken)
      (offer stamp lifetime capacity now key entries).2 := by
  have hlive := h.evict hwindow
  by_cases hseen : key ∈ evict stamp (now - lifetime) entries
  · rw [offer_of_mem hseen]
    exact hlive
  · rw [offer_of_notMem hseen]
    exact hlive.store hcapacity (hroom.resolve_left hseen)

/-- A key that is taken, and may be looked at, has not been taken before. -/
theorem not_mem_of_taken (h : Remembers stamp window now taken entries) (hwindow : window ≤ lifetime)
    (hkey : now - window ≤ stamp key)
    (htaken : (offer stamp lifetime capacity now key entries).1 = true) : key ∉ taken := by
  intro hmem
  have hlive := h.evict hwindow key hmem hkey
  rw [offer_of_mem hlive] at htaken
  cases htaken

end Kairon.Replay
