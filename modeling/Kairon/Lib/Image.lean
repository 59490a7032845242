/-
Kairon/Lib/Image.lean

Images and the readers that serve them.

An image is a list of symbols; a reader is asked for a number of symbols from an offset on
and may fail, or return fewer than it was asked for (`Serves`).  An overlay puts other symbols
in place of those at some positions (`overlay`); reading through the overlay is reading the
image with these symbols replaced (`Serves.throughOverlay`), so its reads fit together like
those of any other image.
-/
import Mathlib.Data.List.Basic

namespace Kairon.Image

variable {β : Type*}

/-- A reader: the symbols from an offset on, at most so many; `none` where it fails. -/
abbrev Reader (β : Type*) := ℕ → ℕ → Option (List β)

/-- What is read is what the image has there, or a beginning of it. -/
def Serves (image : List β) (read : Reader β) : Prop :=
  ∀ offset size data, read offset size = some data → data <+: (image.drop offset).take size

/-- What has been read, symbol by symbol. -/
theorem Serves.getElem? {image : List β} {read : Reader β} (h : Serves image read)
    {offset size : ℕ} {data : List β} (hread : read offset size = some data) {i : ℕ}
    (hi : i < data.length) : data[i]? = image[offset + i]? := by
  have hprefix := List.prefix_iff_getElem?.mp (h offset size data hread) i hi
  have hsize := (h offset size data hread).length_le
  rw [List.length_take] at hsize
  rw [List.getElem?_take_of_lt (by omega), List.getElem?_drop] at hprefix
  rw [List.getElem?_eq_getElem hi, hprefix]

/-! ### Overlays -/

/-- The image with other symbols at the positions the patch has some for. -/
def overlay (patch : ℕ → Option β) (image : List β) : List β :=
  image.mapIdx fun p b => (patch p).getD b

theorem getElem?_overlay (patch : ℕ → Option β) (image : List β) (p : ℕ) :
    (overlay patch image)[p]? = (image[p]?).map (patch p).getD := by
  rw [overlay, List.getElem?_mapIdx]

/-- Reading through the overlay. -/
def throughOverlay (patch : ℕ → Option β) (read : Reader β) : Reader β := fun offset size =>
  (read offset size).map (overlay fun i => patch (offset + i))

/-- **Reads through an overlay are reads of one image.** -/
theorem Serves.throughOverlay {image : List β} {read : Reader β} (h : Serves image read)
    (patch : ℕ → Option β) : Serves (overlay patch image) (throughOverlay patch read) := by
  intro offset size data hdata
  obtain ⟨inner, hinner, rfl⟩ := Option.map_eq_some_iff.mp hdata
  have hle := (h offset size inner hinner).length_le
  rw [List.length_take] at hle
  refine List.prefix_iff_getElem?.mpr fun i hi => ?_
  rw [overlay, List.length_mapIdx] at hi
  rw [List.getElem?_take_of_lt (by omega), List.getElem?_drop, getElem?_overlay,
    ← h.getElem? hinner hi, List.getElem?_eq_getElem hi]
  simp [overlay]

/-! ### Replacing a part -/

/-- `data[start:stop] = new`. -/
def splice (data : List β) (start stop : ℕ) (new : List β) : List β :=
  data.take start ++ new ++ data.drop stop

theorem length_splice {data new : List β} {start stop : ℕ} (hstart : start ≤ stop)
    (hstop : stop ≤ data.length) (hnew : new.length = stop - start) :
    (splice data start stop new).length = data.length := by
  rw [splice, List.length_append, List.length_append, List.length_take, List.length_drop, hnew]
  omega

theorem getElem?_splice {data new : List β} {start stop : ℕ} (hstart : start ≤ stop)
    (hstop : stop ≤ data.length) (hnew : new.length = stop - start) (i : ℕ) :
    (splice data start stop new)[i]? =
      if start ≤ i ∧ i < stop then new[i - start]? else data[i]? := by
  have htake : (data.take start).length = start := by rw [List.length_take]; omega
  rw [splice, List.append_assoc]
  rcases Nat.lt_or_ge i start with hi | hi
  · rw [List.getElem?_append_left (by omega), List.getElem?_take_of_lt hi, if_neg (by omega)]
  · rw [List.getElem?_append_right (by omega), htake]
    rcases Nat.lt_or_ge i stop with hi' | hi'
    · rw [List.getElem?_append_left (by omega), if_pos ⟨hi, hi'⟩]
    · rw [List.getElem?_append_right (by omega), List.getElem?_drop, if_neg (by omega), hnew]
      congr 1
      omega

end Kairon.Image
