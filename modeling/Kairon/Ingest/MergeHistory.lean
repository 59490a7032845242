/-
Kairon/Ingest/MergeHistory.lean

How two snapshots of the metadata of an evidence are merged (`merge_evidence_metadata`).

The four histories are merged by the id of their entries (`_merge_list_by_key`).  The index
the merge keeps has one name space for two things: the id of an entry, and, for an entry
without an id, its JSON text.  `Identity` keeps the two apart, `SeenKey` is what the code
compares.  Where no id is the JSON text of another entry (`Apart`), the code merges by
identity (`mergeListByKey_eq_merge`), and everything that concurrent writers rely on holds;
where one is, an entry is lost (`combinesSnapshots_iff_apart`).
-/
import Kairon.Lib.Coalesce
import Kairon.Lib.Latest
import Kairon.Ingest.EvidenceRuns

namespace Kairon.Runs

open Gather Latest Paging
open Search (Text Json)

/-- What else is used of Python: `json.dumps(d, sort_keys=True, default=str)`, and a value of
`V` for every value that is no dictionary, the same one for values that are equal. -/
structure Encoding (F V : Type) extends Conversions F where
  dumps : Fields F → Text
  valueOf : Json F → V

/-- What an entry is, as the writer means it: its id, or its text, or the value itself. -/
inductive Identity (V : Type)
  | id (s : Text) | payload (s : Text) | value (v : V)
  deriving DecidableEq

/-- What the code compares: ids and texts are keys of one dictionary. -/
inductive SeenKey (V : Type)
  | text (s : Text) | value (v : V)
  deriving DecidableEq

def Identity.seenKey {V : Type} : Identity V → SeenKey V
  | .id s => .text s
  | .payload s => .text s
  | .value v => .value v

section

variable {F V : Type} [DecidableEq V] (py : Encoding F V)

/-! ### The code -/

/-- `merged` and `seen`. -/
structure Merging (F : Type) where
  merged : List (Json F)
  seen : List (Text × ℕ)

/-- `{**merged[i], **item}`, where there is a dictionary. -/
def updated (d : Fields F) : Json F → Json F
  | .obj row => .obj (update row d)
  | row => row

/-- The body of the loop of `_merge_list_by_key`. -/
def Encoding.mergeStep (key : String) (state : Merging F) : Json F → Merging F
  | .obj d =>
    let itemKey := py.orEmpty (field d key)
    if itemKey = [] then
      let payload := py.dumps d
      match Dict.get state.seen payload with
      | some _ => state
      | none => ⟨state.merged ++ [.obj d], Dict.set payload state.merged.length state.seen⟩
    else
      match Dict.get state.seen itemKey with
      | some i => ⟨state.merged.modify i (updated d), state.seen⟩
      | none => ⟨state.merged ++ [.obj d], Dict.set itemKey state.merged.length state.seen⟩
  | item =>
    -- a dictionary is not equal to any other value
    if state.merged.any fun row => asDict row = none && py.valueOf row = py.valueOf item then state
    else ⟨state.merged ++ [item], state.seen⟩

/-- `_merge_list_by_key`. -/
def Encoding.mergeListByKey (key : String) (existing incoming : List (Json F)) : List (Json F) :=
  ((existing ++ incoming).foldl (py.mergeStep key) ⟨[], []⟩).merged

/-- `HISTORY_KEYS`, with the field each is merged by. -/
def historyKeys : List (String × String) :=
  [("artifact_retry_runs", "run_id"), ("ingest_runs", "run_id"),
   ("ingest_benchmark_runs", "benchmark_id"), ("ingest_plan_snapshots", "phase")]

/-- The loop over the histories. -/
def Encoding.mergeHistories (existing patch : Fields F) :
    List (String × String) → Fields F → Option (Fields F)
  | [], result => some result
  | (name, key) :: names, result => do
      let existingValue ← py.listAt existing name
      let incomingValue ← py.listAt patch name
      Encoding.mergeHistories existing patch names
        (Dict.set name.toList (.arr (py.mergeListByKey key existingValue incomingValue)) result)

/-- An id that the patch does not have is taken over, unless it is already there. -/
def Encoding.takeOver (existing patch : Fields F) (name : String) (result : Fields F) : Fields F :=
  if name.toList ∉ patch.map Prod.fst ∧ ¬ py.truthy (field result name) ∧
      py.truthy (field existing name) then
    Dict.set name.toList (field existing name) result
  else result

/-- `merge_evidence_metadata`. -/
def Encoding.mergeEvidenceMetadata (existing patch : Fields F) : Option (Fields F) :=
  (py.mergeHistories existing patch historyKeys (update existing patch)).map fun result =>
    py.takeOver existing patch "current_ingest_run_id"
      (py.takeOver existing patch "latest_ingest_run_id" result)

/-! ### What a merged history is -/

/-- The identity of an entry. -/
def Encoding.identity (key : String) : Json F → Identity V
  | .obj d =>
    if py.orEmpty (field d key) = [] then .payload (py.dumps d) else .id (py.orEmpty (field d key))
  | v => .value (py.valueOf v)

/-- An entry after another one of its identity. -/
def Encoding.combine (key : String) : Json F → Json F → Json F
  | .obj row, .obj d => if py.orEmpty (field d key) = [] then .obj row else .obj (update row d)
  | row, _ => row

/-- A dictionary has every key once. -/
def IsDict : Json F → Prop
  | .obj d => (d.map Prod.fst).Nodup
  | _ => True

/-- The value of a field of an entry. -/
def valueAt (name : Text) : Json F → Option (Json F)
  | .obj d => Dict.get d name
  | _ => none

/-- The history that results: the entries of both sides, each identity once and in the order of
its first occurrence; the entry of an id has for every field what was written last, and any
other entry is one of those that were there. -/
structure Encoding.Merged (key : String) (existing incoming result : List (Json F)) : Prop where
  identities : result.map (py.identity key) = firstKeys (py.identity key) (existing ++ incoming)
  fields : ∀ row ∈ result, ∀ s, py.identity key row = .id s → ∀ name,
    valueAt name row = latest (py.identity key) (valueAt name) (existing ++ incoming) (.id s)
  others : ∀ row ∈ result, (∀ s, py.identity key row ≠ .id s) → row ∈ existing ++ incoming

/-- No id is the text of an entry without one. -/
def Encoding.Apart (key : String) (items : List (Json F)) : Prop :=
  ∀ a ∈ items, ∀ b ∈ items, ∀ s, py.identity key a = .id s → py.identity key b ≠ .payload s

end

section

variable {F : Type}

/-! ### Updating dictionaries -/

theorem get_update {d updates : Fields F} (h : (updates.map Prod.fst).Nodup) (name : Text) :
    Dict.get (update d updates) name = (Dict.get updates name).or (Dict.get d name) := by
  have hreverse : (updates.reverse.map Prod.fst).Nodup := by
    rw [List.map_reverse]
    exact List.nodup_reverse.2 h
  rw [update, Dict.get_foldl_set Prod.fst Prod.snd]
  congr 1
  show Dict.get updates.reverse name = Dict.get updates name
  cases hget : Dict.get updates name with
  | none =>
    rw [Dict.get_eq_none] at hget ⊢
    rwa [List.map_reverse, List.mem_reverse]
  | some value =>
    exact Dict.get_of_mem hreverse (List.mem_reverse.2 (Dict.mem_of_get hget))

theorem nodup_update {d : Fields F} (updates : Fields F) (h : (d.map Prod.fst).Nodup) :
    ((update d updates).map Prod.fst).Nodup := by
  induction updates generalizing d with
  | nil => exact h
  | cons entry updates ih => exact ih (Dict.nodup_keys_set _ _ h)

/-- Two dictionaries with the same keys, in the same order, and the same values. -/
theorem dict_ext {d d' : Fields F} (hnodup : (d.map Prod.fst).Nodup)
    (hkeys : d.map Prod.fst = d'.map Prod.fst) (h : ∀ name, Dict.get d name = Dict.get d' name) :
    d = d' := by
  have hfind : ∀ (entries : Fields F) (name : Text), Coalesce.find Prod.fst name entries =
      (Dict.get entries name).map fun value => (name, value) := by
    intro entries name
    rw [Dict.get, Option.map_map, Coalesce.find]
    cases hsome : entries.find? fun entry => entry.1 = name with
    | none => rfl
    | some entry =>
      have hname : entry.1 = name := by simpa using List.find?_some hsome
      rw [← hname]
      rfl
  refine Coalesce.eq_of_find hnodup hkeys fun name => ?_
  rw [hfind, hfind, h]

end

section

variable {F V : Type} {py : Encoding F V} {key : String}

/-! ### Combining entries -/

theorem identity_updated {row d : Fields F} (hd : (d.map Prod.fst).Nodup)
    (hkey : py.orEmpty (field d key) ≠ []) :
    py.identity key (.obj (update row d)) = py.identity key (.obj d) := by
  have hfield : field (update row d) key = field d key := by
    rw [field, get_update hd]
    have hsome : Dict.get d key.toList ≠ none := fun hnone => by
      rw [field, hnone] at hkey
      exact hkey rfl
    obtain ⟨v, hv⟩ := Option.ne_none_iff_exists'.1 hsome
    rw [hv, Option.some_or, field, hv]
  rw [Encoding.identity, Encoding.identity, hfield, if_neg hkey, if_neg hkey]

theorem combine_keyless {d : Fields F} (h : py.orEmpty (field d key) = []) (row : Json F) :
    py.combine key row (.obj d) = row := by
  cases row with
  | obj row => exact if_pos h
  | _ => rfl

theorem combine_keyed {d : Fields F} (h : py.orEmpty (field d key) ≠ []) (row : Json F) :
    py.combine key row (.obj d) = updated d row := by
  cases row with
  | obj row => exact if_neg h
  | _ => rfl

variable {item : Json F}

theorem identity_value (h : asDict item = none) :
    py.identity key item = .value (py.valueOf item) := by
  cases item with
  | obj d => cases h
  | _ => rfl

theorem identity_keyed {d : Fields F} (h : py.orEmpty (field d key) ≠ []) :
    py.identity key (.obj d) = .id (py.orEmpty (field d key)) := if_neg h

theorem identity_keyless {d : Fields F} (h : py.orEmpty (field d key) = []) :
    py.identity key (.obj d) = .payload (py.dumps d) := if_pos h

/-- A row that shares a text with a dictionary is a dictionary. -/
theorem exists_obj {row : Json F} {s : Text} (h : (py.identity key row).seenKey = .text s) :
    ∃ d, row = .obj d := by
  cases row with
  | obj d => exact ⟨d, rfl⟩
  | _ => cases h

theorem seenKey_obj (d : Fields F) (v : V) : (py.identity key (.obj d)).seenKey ≠ .value v := by
  rw [Encoding.identity]
  split
  · exact fun h => by cases h
  · exact fun h => by cases h

theorem isDict_combine {row item : Json F} (hrow : IsDict row) : IsDict (py.combine key row item) := by
  cases row with
  | obj row =>
    cases item with
    | obj d =>
      rw [Encoding.combine]
      split
      · exact hrow
      · exact nodup_update d hrow
    | _ => exact hrow
  | _ => cases item <;> exact hrow

/-- An entry after another one has the identity of that one, or its own. -/
theorem identity_combine {row item : Json F} (hitem : IsDict item)
    (h : (py.identity key row).seenKey = (py.identity key item).seenKey) :
    py.identity key (py.combine key row item) = py.identity key item ∨
      py.combine key row item = row := by
  cases item with
  | obj d =>
    by_cases hkey : py.orEmpty (field d key) = []
    · exact .inr (combine_keyless hkey row)
    · rw [identity_keyed hkey] at h
      obtain ⟨row, rfl⟩ := exists_obj h
      rw [combine_keyed hkey]
      exact .inl (identity_updated hitem hkey)
  | _ => cases row <;> exact .inr rfl

theorem lawful_seenKey :
    Coalesce.Lawful (fun item => (py.identity key item).seenKey) (py.combine key) IsDict where
  ok_combine _ _ hrow _ _ := isDict_combine hrow
  ident_combine row item _ hitem h := by
    rcases identity_combine hitem h with heq | heq
    · rw [heq, h]
    · rw [heq]

theorem lawful_identity : Coalesce.Lawful (py.identity key) (py.combine key) IsDict where
  ok_combine _ _ hrow _ _ := isDict_combine hrow
  ident_combine row item _ hitem h := by
    rcases identity_combine hitem (congrArg Identity.seenKey h) with heq | heq
    · rw [heq, h]
    · rw [heq]

/-! ### The loop -/

/-- What the code compares of the rows. -/
def Merging.keys (py : Encoding F V) (key : String) (state : Merging F) : List (SeenKey V) :=
  state.merged.map fun item => (py.identity key item).seenKey

/-- The index holds exactly the texts of the rows, and no two rows share one. -/
structure Indexed (py : Encoding F V) (key : String) (state : Merging F) : Prop where
  nodup : (state.keys py key).Nodup
  dicts : ∀ row ∈ state.merged, IsDict row
  seen : ∀ s i, Dict.get state.seen s = some i ↔ (state.keys py key)[i]? = some (.text s)

variable {state : Merging F}

theorem Indexed.notMem (h : Indexed py key state) {s : Text}
    (hnone : Dict.get state.seen s = none) : .text s ∉ state.keys py key := by
  intro hmem
  obtain ⟨i, hi⟩ := List.mem_iff_getElem?.1 hmem
  rw [(h.seen s i).2 hi] at hnone
  cases hnone

theorem getElem?_concat_eq_some {α : Type} {xs : List α} {a b : α} {i : ℕ} :
    (xs ++ [a])[i]? = some b ↔ xs[i]? = some b ∨ i = xs.length ∧ a = b := by
  rcases Nat.lt_trichotomy i xs.length with hi | rfl | hi
  · rw [List.getElem?_append_left hi]
    exact (or_iff_left fun h => hi.ne h.1).symm
  · rw [List.getElem?_concat_length, List.getElem?_eq_none (Nat.le_refl _)]
    simp
  · rw [List.getElem?_eq_none (by simpa using hi), List.getElem?_eq_none (Nat.le_of_lt hi)]
    simpa using fun h => absurd h hi.ne'

theorem keys_concat (state : Merging F) (item : Json F) (seen : List (Text × ℕ)) :
    (⟨state.merged ++ [item], seen⟩ : Merging F).keys py key =
      state.keys py key ++ [(py.identity key item).seenKey] := by
  rw [Merging.keys, List.map_append]
  rfl

/-- A new row with a text is entered into the index. -/
theorem Indexed.append (h : Indexed py key state) {s : Text}
    (hitem : IsDict item) (hkey : (py.identity key item).seenKey = .text s)
    (hnone : Dict.get state.seen s = none) :
    Indexed py key ⟨state.merged ++ [item], Dict.set s state.merged.length state.seen⟩ := by
  have hlength : (state.keys py key).length = state.merged.length := List.length_map _
  refine ⟨?_, ?_, fun t i => ?_⟩
  · rw [keys_concat, hkey]
    exact List.nodup_append.2 ⟨h.nodup, List.nodup_singleton _, fun a ha b hb heq =>
      h.notMem hnone (List.mem_singleton.1 hb ▸ heq ▸ ha)⟩
  · intro row hrow
    rcases List.mem_append.1 hrow with hrow | hrow
    · exact h.dicts row hrow
    · exact List.mem_singleton.1 hrow ▸ hitem
  · rw [keys_concat, hkey, getElem?_concat_eq_some, Dict.get_set, ← h.seen, SeenKey.text.injEq,
      hlength]
    by_cases hst : s = t
    · subst hst
      rw [if_pos rfl, hnone]
      simp [eq_comm]
    · rw [if_neg hst]
      simp [hst]

/-- A new row that is no dictionary is not in the index. -/
theorem Indexed.append_value (h : Indexed py key state) {v : V}
    (hitem : IsDict item) (hkey : (py.identity key item).seenKey = .value v)
    (hnone : .value v ∉ state.keys py key) :
    Indexed py key ⟨state.merged ++ [item], state.seen⟩ := by
  refine ⟨?_, ?_, fun t i => ?_⟩
  · rw [keys_concat, hkey]
    exact List.nodup_append.2 ⟨h.nodup, List.nodup_singleton _, fun a ha b hb heq =>
      hnone (List.mem_singleton.1 hb ▸ heq ▸ ha)⟩
  · intro row hrow
    rcases List.mem_append.1 hrow with hrow | hrow
    · exact h.dicts row hrow
    · exact List.mem_singleton.1 hrow ▸ hitem
  · rw [keys_concat, hkey, getElem?_concat_eq_some, ← h.seen]
    simp

variable [DecidableEq V]

/-- One row of the code, as a row that is merged by what the code compares. -/
def Encoding.putSeen (py : Encoding F V) (key : String) : Json F → List (Json F) → List (Json F) :=
  Coalesce.put (fun item => (py.identity key item).seenKey) (py.combine key)

theorem keys_putSeen (h : Indexed py key state)
    (hitem : IsDict item) (hmem : (py.identity key item).seenKey ∈ state.keys py key) :
    (py.putSeen key item state.merged).map (fun item => (py.identity key item).seenKey) =
      state.keys py key :=
  (Coalesce.idents_put lawful_seenKey hitem h.dicts).trans (if_pos hmem)

/-- The row at a place takes the item. -/
theorem putSeen_eq_modify (h : Indexed py key state) {i : ℕ}
    (hi : (state.keys py key)[i]? = some (py.identity key item).seenKey) :
    py.putSeen key item state.merged = state.merged.modify i (py.combine key · item) := by
  rw [Merging.keys, List.getElem?_map, Option.map_eq_some_iff] at hi
  obtain ⟨row, hrow, hkey⟩ := hi
  exact Coalesce.put_eq_modify hrow hkey h.nodup

theorem putSeen_eq_self (h : Indexed py key state)
    (hmem : (py.identity key item).seenKey ∈ state.keys py key)
    (hcombine : ∀ row, py.combine key row item = row) :
    py.putSeen key item state.merged = state.merged := by
  obtain ⟨i, hi⟩ := List.mem_iff_getElem?.1 hmem
  rw [putSeen_eq_modify h hi, funext hcombine]
  exact List.modify_id ..

theorem mergeStep_eq_put (h : Indexed py key state) (hitem : IsDict item) :
    (py.mergeStep key state item).merged = py.putSeen key item state.merged ∧
      Indexed py key (py.mergeStep key state item) := by
  by_cases hobj : asDict item = none
  · -- a value is compared with the values
    have hkey : (py.identity key item).seenKey = .value (py.valueOf item) :=
      congrArg Identity.seenKey (identity_value hobj)
    have hcombine : ∀ row, py.combine key row item = row := by
      intro row
      cases item with
      | obj d => cases hobj
      | _ => cases row <;> rfl
    have hany : (state.merged.any fun row => asDict row = none && py.valueOf row = py.valueOf item) =
        true ↔ .value (py.valueOf item) ∈ state.keys py key := by
      rw [List.any_eq_true, Merging.keys, List.mem_map]
      refine exists_congr fun row => and_congr_right fun _ => ?_
      rw [Bool.and_eq_true, decide_eq_true_eq, decide_eq_true_eq]
      constructor
      · rintro ⟨hrow, heq⟩
        rw [identity_value hrow, heq]
        rfl
      · intro hvalue
        cases row with
        | obj d => exact absurd hvalue (seenKey_obj d _)
        | _ => exact ⟨rfl, SeenKey.value.inj hvalue⟩
    have hstep : py.mergeStep key state item =
        if state.merged.any fun row => asDict row = none && py.valueOf row = py.valueOf item then
          state else ⟨state.merged ++ [item], state.seen⟩ := by
      cases item with
      | obj d => cases hobj
      | _ => rfl
    rw [hstep]
    by_cases hmem : .value (py.valueOf item) ∈ state.keys py key
    · rw [if_pos (hany.2 hmem), putSeen_eq_self h (hkey ▸ hmem) hcombine]
      exact ⟨rfl, h⟩
    · rw [if_neg fun h => hmem (hany.1 h)]
      exact ⟨(Coalesce.put_of_notMem (hkey ▸ hmem)).symm, h.append_value hitem hkey hmem⟩
  · obtain ⟨d, rfl⟩ : ∃ d, item = .obj d := by
      cases item with
      | obj d => exact ⟨d, rfl⟩
      | _ => exact absurd rfl hobj
    -- an entry has one text, its id or else its JSON
    obtain ⟨s, hkey, hstep⟩ : ∃ s, (py.identity key (.obj d)).seenKey = .text s ∧
        py.mergeStep key state (.obj d) = match Dict.get state.seen s with
          | some i => ⟨state.merged.modify i (py.combine key · (.obj d)), state.seen⟩
          | none => ⟨state.merged ++ [.obj d], Dict.set s state.merged.length state.seen⟩ := by
      by_cases hid : py.orEmpty (field d key) = []
      · refine ⟨py.dumps d, congrArg Identity.seenKey (identity_keyless hid), ?_⟩
        rw [Encoding.mergeStep, if_pos hid, funext (combine_keyless hid)]
        dsimp only
        cases Dict.get state.seen (py.dumps d) with
        | none => rfl
        | some i => exact congrArg (Merging.mk · state.seen) (List.modify_id i state.merged).symm
      · refine ⟨_, congrArg Identity.seenKey (identity_keyed hid), ?_⟩
        rw [Encoding.mergeStep, if_neg hid, funext (combine_keyed hid)]
    rw [hstep]
    cases hget : Dict.get state.seen s with
    | none =>
      exact ⟨(Coalesce.put_of_notMem (hkey ▸ h.notMem hget)).symm, h.append hitem hkey hget⟩
    | some i =>
      have hi := (h.seen s i).1 hget
      rw [← hkey] at hi
      dsimp only
      rw [← putSeen_eq_modify h hi]
      have hkeys := keys_putSeen h hitem (List.mem_of_getElem? hi)
      refine ⟨rfl, ?_, Coalesce.ok_put lawful_seenKey hitem h.dicts, fun t j => ?_⟩
      · rw [Merging.keys, hkeys]
        exact h.nodup
      · rw [Merging.keys, hkeys]
        exact h.seen t j

variable {existing incoming : List (Json F)}

/-- The code merges by what it compares. -/
theorem mergeListByKey_eq_seen (hdicts : ∀ item ∈ existing ++ incoming, IsDict item) :
    py.mergeListByKey key existing incoming =
      Coalesce.merge (fun item => (py.identity key item).seenKey) (py.combine key) []
        (existing ++ incoming) := by
  have hloop : ∀ (items : List (Json F)) (state : Merging F), Indexed py key state →
      (∀ item ∈ items, IsDict item) → (items.foldl (py.mergeStep key) state).merged =
        items.foldl (fun rows item => py.putSeen key item rows) state.merged := by
    intro items
    induction items with
    | nil => exact fun _ _ _ => rfl
    | cons item items ih =>
      intro state hstate hitems
      obtain ⟨hitem, hitems⟩ := List.forall_mem_cons.1 hitems
      obtain ⟨hmerged, hindexed⟩ := mergeStep_eq_put hstate hitem
      rw [List.foldl_cons, ih _ hindexed hitems, hmerged, List.foldl_cons]
  refine hloop _ ⟨[], []⟩ ⟨List.nodup_nil, fun _ h => absurd h List.not_mem_nil, fun s i => ?_⟩ hdicts
  exact iff_of_false (fun h => by cases h) (fun h => by cases h)

/-! ### Entries that are kept apart -/

omit [DecidableEq V] in
theorem Encoding.Apart.mono {items items' : List (Json F)} (h : py.Apart key items)
    (hsub : ∀ a ∈ items', ∃ b ∈ items, py.identity key b = py.identity key a) :
    py.Apart key items' := by
  intro a ha b hb s hid hpayload
  obtain ⟨a', ha', heq⟩ := hsub a ha
  obtain ⟨b', hb', heq'⟩ := hsub b hb
  exact h a' ha' b' hb' s (heq.trans hid) (heq'.trans hpayload)

variable {items : List (Json F)}

omit [DecidableEq V] in
theorem Encoding.Apart.identity_eq (h : py.Apart key items) {a b : Json F}
    (ha : a ∈ items) (hb : b ∈ items)
    (heq : (py.identity key a).seenKey = (py.identity key b).seenKey) :
    py.identity key a = py.identity key b := by
  have hab := h a ha b hb
  have hba := h b hb a ha
  rcases hia : py.identity key a with s | s | v
  · rcases hib : py.identity key b with s' | s' | v'
    · rw [hia, hib] at heq
      exact congrArg _ (SeenKey.text.inj heq)
    · rw [hia, hib] at heq
      cases SeenKey.text.inj heq
      exact absurd hib (hab s hia)
    · rw [hia, hib] at heq
      cases heq
  · rcases hib : py.identity key b with s' | s' | v'
    · rw [hia, hib] at heq
      cases SeenKey.text.inj heq
      exact absurd hia (hba s hib)
    · rw [hia, hib] at heq
      exact congrArg _ (SeenKey.text.inj heq)
    · rw [hia, hib] at heq
      cases heq
  · rcases hib : py.identity key b with s' | s' | v'
    · rw [hia, hib] at heq
      cases heq
    · rw [hia, hib] at heq
      cases heq
    · rw [hia, hib] at heq
      exact congrArg _ (SeenKey.value.inj heq)

/-- Rows merged by their identity. -/
def Encoding.mergeRows (py : Encoding F V) (key : String) :
    List (Json F) → List (Json F) → List (Json F) :=
  Coalesce.merge (py.identity key) (py.combine key)

theorem mergeListByKey_eq_merge (hdicts : ∀ item ∈ existing ++ incoming, IsDict item)
    (hapart : py.Apart key (existing ++ incoming)) :
    py.mergeListByKey key existing incoming = py.mergeRows key [] (existing ++ incoming) := by
  rw [mergeListByKey_eq_seen hdicts]
  refine Coalesce.merge_congr lawful_identity
    (fun k => ∃ item ∈ existing ++ incoming, py.identity key item = k) ?_
    (fun _ h => absurd h List.not_mem_nil) fun item hitem => ⟨hdicts item hitem, item, hitem, rfl⟩
  rintro a b - - ⟨a', ha', hia⟩ ⟨b', hb', hib⟩
  rw [← hia, ← hib]
  exact ⟨hapart.identity_eq ha' hb', congrArg _⟩

/-! ### What the items of one identity add up to -/

omit [DecidableEq V] in
theorem exists_keyed {s : Text} (h : py.identity key item = .id s) :
    ∃ d, item = .obj d ∧ py.orEmpty (field d key) ≠ [] := by
  obtain ⟨d, rfl⟩ := exists_obj (congrArg Identity.seenKey h)
  refine ⟨d, rfl, fun hid => ?_⟩
  rw [identity_keyless hid] at h
  cases h

omit [DecidableEq V] in
theorem combine_of_not_id (h : ∀ s, py.identity key item ≠ .id s) (row : Json F) :
    py.combine key row item = row := by
  cases item with
  | obj d =>
    refine combine_keyless ?_ row
    by_contra hid
    exact h _ (identity_keyed hid)
  | _ => cases row <;> rfl

variable {row : Option (Json F)}

omit [DecidableEq V] in
/-- Entries of one id: every field has what was written last. -/
theorem valueAt_foldl_absorb {s : Text}
    (hitems : ∀ item ∈ items, IsDict item ∧ py.identity key item = .id s) (name : Text)
    (hrow : ∀ b, row = some b → ∃ d, b = .obj d) :
    (items.foldl (Coalesce.absorb (py.combine key)) row).bind (valueAt name) =
      ((items.filterMap (valueAt name)).getLast?).or (row.bind (valueAt name)) := by
  induction items generalizing row with
  | nil => rfl
  | cons item items ih =>
    obtain ⟨⟨hdict, hid⟩, hrest⟩ := List.forall_mem_cons.1 hitems
    obtain ⟨d, rfl, hkey⟩ := exists_keyed hid
    obtain ⟨e, he, hvalue⟩ : ∃ e, Coalesce.absorb (py.combine key) row (.obj d) = some (.obj e) ∧
        Dict.get e name = (Dict.get d name).or (row.bind (valueAt name)) := by
      rcases row with - | row
      · exact ⟨d, rfl, (Option.or_none ..).symm⟩
      · obtain ⟨r, rfl⟩ := hrow row rfl
        exact ⟨update r d, congrArg some (combine_keyed hkey (.obj r)), get_update hdict name⟩
    rw [List.foldl_cons, he, ih hrest fun b hb => ⟨e, (Option.some.inj hb).symm⟩,
      Option.bind_some, valueAt, hvalue, List.filterMap_cons]
    rw [show valueAt name (.obj d) = Dict.get d name from rfl]
    cases Dict.get d name with
    | none => rfl
    | some v =>
      rw [List.getLast?_cons]
      cases (items.filterMap (valueAt name)).getLast? with
      | none => rfl
      | some w => rfl

omit [DecidableEq V] in
/-- Entries without an id: the first of them stays. -/
theorem foldl_absorb_fixed
    (hitems : ∀ item ∈ items, ∀ s, py.identity key item ≠ .id s) (row : Json F) :
    items.foldl (Coalesce.absorb (py.combine key)) (some row) = some row := by
  induction items with
  | nil => rfl
  | cons item items ih =>
    obtain ⟨hitem, hitems⟩ := List.forall_mem_cons.1 hitems
    rw [List.foldl_cons, Coalesce.absorb, Option.elim_some, combine_of_not_id hitem, ih hitems]

omit [DecidableEq V] in
/-- The entries of an id leave a dictionary, once there is one. -/
theorem foldl_absorb_obj {s : Text}
    (hitems : ∀ item ∈ items, py.identity key item = .id s) {r : Fields F}
    (hr : (r.map Prod.fst).Nodup) :
    ∃ e, items.foldl (Coalesce.absorb (py.combine key)) (some (.obj r)) = some (.obj e) ∧
      (e.map Prod.fst).Nodup ∧
      ((∀ d, .obj d ∈ items → ∀ name ∈ d.map Prod.fst, name ∈ r.map Prod.fst) →
        e.map Prod.fst = r.map Prod.fst) := by
  induction items generalizing r with
  | nil => exact ⟨r, rfl, hr, fun _ => rfl⟩
  | cons item items ih =>
    obtain ⟨hid, hrest⟩ := List.forall_mem_cons.1 hitems
    obtain ⟨d, rfl, hkey⟩ := exists_keyed hid
    obtain ⟨e, he, hnodup, hkeys⟩ := ih hrest (nodup_update d hr)
    refine ⟨e, ?_, hnodup, fun hsub => ?_⟩
    · rw [List.foldl_cons, Coalesce.absorb, Option.elim_some, combine_keyed hkey]
      exact he
    · have hupdate : (update r d).map Prod.fst = r.map Prod.fst :=
        Dict.keys_foldl_set_of_mem Prod.fst Prod.snd fun entry hentry =>
          hsub d (.head _) entry.1 (List.mem_map_of_mem hentry)
      rw [hkeys fun d' hd' => hupdate ▸ hsub d' (.tail _ hd'), hupdate]

omit [DecidableEq V] in
/-- Writing the same entries again changes nothing. -/
theorem foldl_absorb_again {k : Identity V}
    (hitems : ∀ item ∈ items, IsDict item ∧ py.identity key item = k)
    (hrow : ∀ b, row = some b → IsDict b ∧ py.identity key b = k) :
    items.foldl (Coalesce.absorb (py.combine key))
        (items.foldl (Coalesce.absorb (py.combine key)) row) =
      items.foldl (Coalesce.absorb (py.combine key)) row := by
  by_cases hk : ∃ s, k = .id s
  swap
  · -- the first entry stays, the first time and the second
    have hnot : ∀ item ∈ items, ∀ s, py.identity key item ≠ .id s := fun item hitem s hid =>
      hk ⟨s, (hitems item hitem).2.symm.trans hid⟩
    rcases row with - | row
    · rcases items with - | ⟨item, items⟩
      · rfl
      · have hrest := (List.forall_mem_cons.1 hnot).2
        have hfirst : (item :: items).foldl (Coalesce.absorb (py.combine key)) none = some item :=
          foldl_absorb_fixed hrest item
        rw [hfirst, foldl_absorb_fixed hnot]
    · rw [foldl_absorb_fixed hnot, foldl_absorb_fixed hnot]
  obtain ⟨s, rfl⟩ := hk
  have hids : ∀ item ∈ items, py.identity key item = .id s := fun item hitem => (hitems item hitem).2
  have hobj : ∀ b, row = some b → ∃ d, b = .obj d := fun b hb => by
    obtain ⟨d, hd, -⟩ := exists_keyed (hrow b hb).2
    exact ⟨d, hd⟩
  by_cases hempty : items = [] ∧ row = none
  · rw [hempty.1]
    rfl
  -- what the entries add up to is a dictionary
  obtain ⟨e, he, hnodup⟩ : ∃ e, items.foldl (Coalesce.absorb (py.combine key)) row =
      some (.obj e) ∧ (e.map Prod.fst).Nodup := by
    rcases row with - | row
    · rcases items with - | ⟨item, items⟩
      · exact absurd ⟨rfl, rfl⟩ hempty
      · obtain ⟨⟨hdict, hid⟩, -⟩ := List.forall_mem_cons.1 hitems
        obtain ⟨d, rfl, -⟩ := exists_keyed hid
        obtain ⟨e, he, hnodup, -⟩ := foldl_absorb_obj (List.forall_mem_cons.1 hids).2 hdict
        exact ⟨e, he, hnodup⟩
    · obtain ⟨d, rfl⟩ := hobj row rfl
      obtain ⟨e, he, hnodup, -⟩ := foldl_absorb_obj hids (hrow _ rfl).1
      exact ⟨e, he, hnodup⟩
  have hvalue := fun name => valueAt_foldl_absorb hitems name hobj
  simp only [he, Option.bind_some, valueAt] at hvalue
  obtain ⟨e', he', -, hkeys⟩ := foldl_absorb_obj hids hnodup
  have hdict : ∀ b, some (Json.obj e) = some b → ∃ d, b = .obj d := fun b hb =>
    ⟨e, (Option.some.inj hb).symm⟩
  have hagain := fun name => valueAt_foldl_absorb hitems name hdict
  simp only [he', Option.bind_some, valueAt] at hagain
  rw [he, he']
  refine congrArg (fun d => some (Json.obj d)) (dict_ext ?_ ?_ ?_).symm
  · exact hnodup
  · refine (hkeys fun d hd name hname => ?_).symm
    by_contra hnot
    rw [← Dict.get_eq_none, hvalue name, Option.or_eq_none_iff, List.getLast?_eq_none_iff,
      List.filterMap_eq_nil_iff] at hnot
    exact Dict.get_eq_none.1 (hnot.1 _ hd) hname
  · intro name
    rw [hagain name, hvalue name]
    cases (items.filterMap (valueAt name)).getLast? <;> rfl

/-! ### The merged history -/

theorem dicts_mergeRows {rows items : List (Json F)} (hrows : ∀ row ∈ rows, IsDict row)
    (hitems : ∀ item ∈ items, IsDict item) : ∀ row ∈ py.mergeRows key rows items, IsDict row :=
  Coalesce.ok_merge lawful_identity hrows hitems

theorem identities_mergeRows (hitems : ∀ item ∈ items, IsDict item) :
    (py.mergeRows key [] items).map (py.identity key) = firstKeys (py.identity key) items :=
  Coalesce.idents_merge_nil lawful_identity hitems

/-- Merging by identity is what the writers rely on. -/
theorem merged_mergeRows (hdicts : ∀ item ∈ existing ++ incoming, IsDict item) :
    py.Merged key existing incoming (py.mergeRows key [] (existing ++ incoming)) := by
  have hidentities : (py.mergeRows key [] (existing ++ incoming)).map (py.identity key) =
      firstKeys (py.identity key) (existing ++ incoming) := identities_mergeRows hdicts
  have hfind : ∀ row ∈ py.mergeRows key [] (existing ++ incoming),
      ((existing ++ incoming).filter (py.identity key · = py.identity key row)).foldl
        (Coalesce.absorb (py.combine key)) none = some row := by
    intro row hrow
    have hnodup : ((py.mergeRows key [] (existing ++ incoming)).map (py.identity key)).Nodup :=
      hidentities ▸ nodup_firstKeys _
    have hself := Coalesce.find_of_mem hnodup hrow
    rwa [Encoding.mergeRows, Coalesce.find_merge lawful_identity
      (fun _ h => absurd h List.not_mem_nil) hdicts] at hself
  refine ⟨hidentities, fun row hrow s hs name => ?_, fun row hrow hnot => ?_⟩
  · have hitems : ∀ item ∈ (existing ++ incoming).filter (py.identity key · = .id s),
        IsDict item ∧ py.identity key item = .id s := fun item hitem =>
      ⟨hdicts item (List.mem_of_mem_filter hitem), of_decide_eq_true (List.mem_filter.1 hitem).2⟩
    have hnone : ∀ b, (none : Option (Json F)) = some b → ∃ d, b = .obj d := fun _ h => by cases h
    have hvalue := valueAt_foldl_absorb hitems name hnone
    have hrow' := hfind row hrow
    rw [hs] at hrow'
    rw [hrow', Option.bind_some] at hvalue
    rw [hvalue, latest]
    exact Option.or_none ..
  · have hrow' := hfind row hrow
    rcases hitems : (existing ++ incoming).filter (py.identity key · = py.identity key row) with
      - | ⟨item, items⟩
    · rw [hitems] at hrow'
      cases hrow'
    · have hmem : ∀ item' ∈ item :: items, item' ∈ existing ++ incoming ∧
          py.identity key item' = py.identity key row := fun item' h => by
        rw [← hitems] at h
        exact ⟨List.mem_of_mem_filter h, of_decide_eq_true (List.mem_filter.1 h).2⟩
      rw [hitems] at hrow'
      have hfirst := hrow'.symm.trans (foldl_absorb_fixed (fun item' h s hs =>
        hnot s ((hmem item' (.tail _ h)).2.symm.trans hs)) item)
      rw [Option.some.inj hfirst]
      exact (hmem item (.head _)).1

/-- What the code merges is what the writers rely on, exactly where ids and texts are apart. -/
theorem merged_iff_apart (hdicts : ∀ item ∈ existing ++ incoming, IsDict item) :
    py.Merged key existing incoming (py.mergeListByKey key existing incoming) ↔
      py.Apart key (existing ++ incoming) := by
  constructor
  · intro hmerged a ha b hb s hid hpayload
    -- two rows of the result, which the code does not tell apart
    have hexists : ∀ item ∈ existing ++ incoming,
        ∃ row ∈ py.mergeListByKey key existing incoming, py.identity key row = py.identity key item := by
      intro item hitem
      have hmem : py.identity key item ∈ firstKeys (py.identity key) (existing ++ incoming) :=
        mem_firstKeys.2 ⟨item, hitem, rfl⟩
      rw [← hmerged.identities] at hmem
      exact List.mem_map.1 hmem
    obtain ⟨row, hrow, hrowid⟩ := hexists a ha
    obtain ⟨row', hrow', hrowid'⟩ := hexists b hb
    rw [hid] at hrowid
    rw [hpayload] at hrowid'
    have hnodup : ((py.mergeListByKey key existing incoming).map
        fun item => (py.identity key item).seenKey).Nodup := by
      rw [mergeListByKey_eq_seen hdicts, Coalesce.idents_merge_nil lawful_seenKey hdicts]
      exact nodup_firstKeys _
    have heq := List.inj_on_of_nodup_map hnodup hrow hrow' (by rw [hrowid, hrowid']; rfl)
    rw [heq, hrowid'] at hrowid
    cases hrowid
  · intro hapart
    rw [mergeListByKey_eq_merge hdicts hapart]
    exact merged_mergeRows hdicts

/-! ### Merging twice -/

theorem dicts_mergeListByKey (hdicts : ∀ item ∈ existing ++ incoming, IsDict item) :
    ∀ row ∈ py.mergeListByKey key existing incoming, IsDict row := by
  rw [mergeListByKey_eq_seen hdicts]
  exact Coalesce.ok_merge lawful_seenKey (fun _ h => absurd h List.not_mem_nil) hdicts

/-- The rows of a history with no two of one identity. -/
theorem nodup_mergeRows (hitems : ∀ item ∈ items, IsDict item) :
    ((py.mergeRows key [] items).map (py.identity key)).Nodup := by
  rw [identities_mergeRows hitems]
  exact nodup_firstKeys _

theorem mergeRows_append (rows items more : List (Json F)) :
    py.mergeRows key rows (items ++ more) = py.mergeRows key (py.mergeRows key rows items) more :=
  Coalesce.merge_append rows items more

/-- Every entry of a merged history was there, under its identity. -/
theorem exists_of_mem_mergeListByKey (hdicts : ∀ item ∈ existing ++ incoming, IsDict item)
    (hapart : py.Apart key (existing ++ incoming)) {row : Json F}
    (hrow : row ∈ py.mergeListByKey key existing incoming) :
    ∃ item ∈ existing ++ incoming, py.identity key item = py.identity key row := by
  have hmem : py.identity key row ∈ (py.mergeListByKey key existing incoming).map (py.identity key) :=
    List.mem_map_of_mem hrow
  rw [mergeListByKey_eq_merge hdicts hapart, identities_mergeRows hdicts] at hmem
  exact mem_firstKeys.1 hmem

variable {existing incoming more : List (Json F)}

theorem apart_after (hdicts : ∀ item ∈ existing ++ incoming, IsDict item)
    (hapart : py.Apart key (existing ++ incoming ++ more)) :
    py.Apart key (py.mergeListByKey key existing incoming ++ more) := by
  have hfirst : py.Apart key (existing ++ incoming) :=
    hapart.mono fun a ha => ⟨a, List.mem_append_left _ ha, rfl⟩
  refine hapart.mono fun a ha => ?_
  rcases List.mem_append.1 ha with ha | ha
  · obtain ⟨item, hitem, hid⟩ := exists_of_mem_mergeListByKey hdicts hfirst ha
    exact ⟨item, List.mem_append_left _ hitem, hid⟩
  · exact ⟨a, List.mem_append_right _ ha, rfl⟩

/-- What is merged into a merged history is merged into its rows. -/
theorem mergeListByKey_after
    (hdicts : ∀ item ∈ existing ++ incoming, IsDict item) (hmore : ∀ item ∈ more, IsDict item)
    (hapart : py.Apart key (existing ++ incoming ++ more)) :
    py.mergeListByKey key (py.mergeListByKey key existing incoming) more =
      py.mergeRows key (py.mergeRows key (py.mergeRows key [] existing) incoming) more := by
  have hfirst : py.Apart key (existing ++ incoming) :=
    hapart.mono fun a ha => ⟨a, List.mem_append_left _ ha, rfl⟩
  have hmerged : ∀ row ∈ py.mergeListByKey key existing incoming ++ more, IsDict row := by
    intro row hrow
    rcases List.mem_append.1 hrow with hrow | hrow
    exacts [dicts_mergeListByKey hdicts row hrow, hmore row hrow]
  have hself : py.mergeRows key [] (py.mergeRows key [] (existing ++ incoming)) =
      py.mergeRows key [] (existing ++ incoming) :=
    Coalesce.merge_nil_of_nodup (nodup_mergeRows hdicts)
  rw [mergeListByKey_eq_merge hmerged (apart_after hdicts hapart), mergeRows_append,
    mergeListByKey_eq_merge hdicts hfirst, hself, mergeRows_append]

/-- **Merging the same patch again changes nothing.** -/
theorem mergeListByKey_again (hdicts : ∀ item ∈ existing ++ incoming, IsDict item)
    (hapart : py.Apart key (existing ++ incoming)) :
    py.mergeListByKey key (py.mergeListByKey key existing incoming) incoming =
      py.mergeListByKey key existing incoming := by
  obtain ⟨hexisting, hincoming⟩ := List.forall_mem_append.1 hdicts
  have htwice : py.Apart key (existing ++ incoming ++ incoming) := hapart.mono fun a ha => by
    rcases List.mem_append.1 ha with ha | ha
    exacts [⟨a, ha, rfl⟩, ⟨a, List.mem_append_right _ ha, rfl⟩]
  rw [mergeListByKey_after hdicts hincoming htwice, mergeListByKey_eq_merge hdicts hapart,
    mergeRows_append]
  refine Coalesce.merge_merge_self lawful_identity
    (dicts_mergeRows (fun _ h => absurd h List.not_mem_nil) hexisting) hincoming
    (nodup_mergeRows hexisting) fun k row hrow => foldl_absorb_again (fun item hitem => ?_) hrow
  exact ⟨hincoming item (List.mem_of_mem_filter hitem), of_decide_eq_true (List.mem_filter.1 hitem).2⟩

/-- **Patches with different entries can be merged in either order.** -/
theorem mergeListByKey_comm
    (hdicts : ∀ item ∈ existing ++ incoming, IsDict item) (hmore : ∀ item ∈ more, IsDict item)
    (hapart : py.Apart key (existing ++ incoming ++ more))
    (hdisjoint : ∀ a ∈ incoming, ∀ b ∈ more, py.identity key a ≠ py.identity key b) :
    (py.mergeListByKey key (py.mergeListByKey key existing incoming) more).Perm
      (py.mergeListByKey key (py.mergeListByKey key existing more) incoming) := by
  obtain ⟨hexisting, hincoming⟩ := List.forall_mem_append.1 hdicts
  have hswapped : py.Apart key (existing ++ more ++ incoming) := hapart.mono fun a ha =>
    ⟨a, by rw [List.mem_append, List.mem_append] at ha ⊢; tauto, rfl⟩
  rw [mergeListByKey_after hdicts hmore hapart,
    mergeListByKey_after (List.forall_mem_append.2 ⟨hexisting, hmore⟩) hincoming hswapped]
  exact Coalesce.merge_comm lawful_identity
    (dicts_mergeRows (fun _ h => absurd h List.not_mem_nil) hexisting) hincoming hmore
    (nodup_mergeRows hexisting) hdisjoint

end

/-! ### Whole snapshots -/

section

variable {F V : Type} [DecidableEq V] (py : Encoding F V)

/-- `metadata.get(name) or []` -/
def Encoding.history (metadata : Fields F) (name : String) : List (Json F) :=
  (py.listAt metadata name).getD []

/-- Metadata: the histories are lists, and dictionaries have every key once. -/
structure Encoding.WellFormed (metadata : Fields F) : Prop where
  nodup : (metadata.map Prod.fst).Nodup
  lists : ∀ entry ∈ historyKeys, (py.listAt metadata entry.1).isSome
  dicts : ∀ entry ∈ historyKeys, ∀ item ∈ py.history metadata entry.1, IsDict item

/-- A field that is no history. -/
def IsPlain (name : Text) : Prop := name ∉ historyKeys.map fun entry => entry.1.toList

/-- The histories are merged, and of the other fields the patch wins. -/
structure Encoding.Merges (existing patch result : Fields F) : Prop where
  histories : ∀ entry ∈ historyKeys, py.Merged entry.2 (py.history existing entry.1)
    (py.history patch entry.1) (py.history result entry.1)
  plain : ∀ name, IsPlain name →
    Dict.get result name = (Dict.get patch name).or (Dict.get existing name)

/-- Patches that touch different fields and entries. -/
structure Encoding.Disjoint (patch other : Fields F) : Prop where
  histories : ∀ entry ∈ historyKeys, ∀ a ∈ py.history patch entry.1,
    ∀ b ∈ py.history other entry.1, py.identity entry.2 a ≠ py.identity entry.2 b
  plain : ∀ name, IsPlain name → name ∈ patch.map Prod.fst → name ∉ other.map Prod.fst

/-- The same entries, in some order, and the same other fields. -/
structure Encoding.SameEntries (metadata other : Fields F) : Prop where
  histories : ∀ entry ∈ historyKeys, (py.history metadata entry.1).Perm (py.history other entry.1)
  plain : ∀ name, IsPlain name → Dict.get metadata name = Dict.get other name

/-- In none of the histories an id is the text of an entry without one. -/
def Encoding.ApartIn (existing patch other : Fields F) : Prop :=
  ∀ entry ∈ historyKeys, py.Apart entry.2
    (py.history existing entry.1 ++ py.history patch entry.1 ++ py.history other entry.1)

/-- Two writers whose snapshots are merged: each merge keeps everything, the second time it
changes nothing, and for disjoint snapshots the order does not matter. -/
structure Encoding.CombinesSnapshots (existing patch other : Fields F) : Prop where
  merges : ∃ result, py.mergeEvidenceMetadata existing patch = some result ∧
    py.Merges existing patch result
  again : ∀ result, py.mergeEvidenceMetadata existing patch = some result →
    py.mergeEvidenceMetadata result patch = some result
  after : ∀ result, py.mergeEvidenceMetadata existing patch = some result →
    ∃ final, py.mergeEvidenceMetadata result other = some final ∧ py.Merges result other final
  order : py.Disjoint patch other → ∀ result final result' final',
    py.mergeEvidenceMetadata existing patch = some result →
    py.mergeEvidenceMetadata result other = some final →
    py.mergeEvidenceMetadata existing other = some result' →
    py.mergeEvidenceMetadata result' patch = some final' → py.SameEntries final final'

end

section

variable {F V : Type} [DecidableEq V] {py : Encoding F V} {existing patch : Fields F}

/-- The loop over the histories, on a result in which nothing but the histories differs. -/
theorem mergeHistories_eq {names : List (String × String)}
    (hexisting : ∀ entry ∈ names, (py.listAt existing entry.1).isSome)
    (hpatch : ∀ entry ∈ names, (py.listAt patch entry.1).isSome) (result : Fields F) :
    py.mergeHistories existing patch names result =
      some (names.foldl (fun result entry => Dict.set entry.1.toList
        (.arr (py.mergeListByKey entry.2 (py.history existing entry.1)
          (py.history patch entry.1))) result) result) := by
  induction names generalizing result with
  | nil => rfl
  | cons entry names ih =>
    obtain ⟨hentry, hexisting⟩ := List.forall_mem_cons.1 hexisting
    obtain ⟨hentry', hpatch⟩ := List.forall_mem_cons.1 hpatch
    obtain ⟨items, hitems⟩ := Option.isSome_iff_exists.1 hentry
    obtain ⟨items', hitems'⟩ := Option.isSome_iff_exists.1 hentry'
    rw [Encoding.mergeHistories, hitems, hitems', Option.bind_eq_bind, Option.bind_some,
      Option.bind_some, ih hexisting hpatch, List.foldl_cons, Encoding.history,
      Encoding.history, hitems, hitems']
    rfl

variable {result : Fields F}

theorem takeOver_eq_self {name : String} (h : Dict.get result name.toList =
      (Dict.get patch name.toList).or (Dict.get existing name.toList)) :
    py.takeOver existing patch name result = result := by
  refine if_neg ?_
  rintro ⟨hpatch, hresult, hexisting⟩
  rw [field, h, Dict.get_eq_none.2 hpatch, Option.none_or] at hresult
  exact hresult hexisting

/-- The merged history of a name. -/
def Encoding.mergedHistory (py : Encoding F V) (existing patch : Fields F)
    (entry : String × String) : List (Json F) :=
  py.mergeListByKey entry.2 (py.history existing entry.1) (py.history patch entry.1)

theorem nodup_historyKeys : (historyKeys.map fun entry => entry.1.toList).Nodup := by decide

variable {items : List (Json F)}

theorem listAt_of_get {metadata : Fields F} {name : String}
    (h : Dict.get metadata name.toList = some (.arr items)) :
    py.listAt metadata name = some items := by
  rw [Conversions.listAt, field, h, Option.getD_some]
  cases items with
  | nil => rfl
  | cons item items => rfl

theorem dicts_histories (hexisting : py.WellFormed existing) (hpatch : py.WellFormed patch)
    {entry : String × String} (hentry : entry ∈ historyKeys) :
    ∀ item ∈ py.history existing entry.1 ++ py.history patch entry.1, IsDict item :=
  List.forall_mem_append.2 ⟨hexisting.dicts entry hentry, hpatch.dicts entry hentry⟩

/-- What `merge_evidence_metadata` returns, field by field. -/
theorem mergeEvidenceMetadata_spec (hexisting : py.WellFormed existing)
    (hpatch : py.WellFormed patch) :
    ∃ result, py.mergeEvidenceMetadata existing patch = some result ∧ py.WellFormed result ∧
      (∀ entry ∈ historyKeys,
        Dict.get result entry.1.toList = some (.arr (py.mergedHistory existing patch entry))) ∧
      (∀ name, IsPlain name →
        Dict.get result name = (Dict.get patch name).or (Dict.get existing name)) ∧
      ((∀ name, name ∈ patch.map Prod.fst ∨ ¬ IsPlain name → name ∈ existing.map Prod.fst) →
        result.map Prod.fst = existing.map Prod.fst) := by
  let name : String × String → Text := fun entry => entry.1.toList
  let value : String × String → Json F := fun entry => .arr (py.mergedHistory existing patch entry)
  let result := historyKeys.foldl (fun result entry => Dict.set (name entry) (value entry) result)
    (update existing patch)
  have hget : ∀ text, Dict.get result text =
      ((historyKeys.reverse.find? fun entry => name entry = text).map value).or
        ((Dict.get patch text).or (Dict.get existing text)) := fun text => by
    rw [Dict.get_foldl_set name value, get_update hpatch.nodup]
  have hplain : ∀ text, IsPlain text →
      Dict.get result text = (Dict.get patch text).or (Dict.get existing text) := by
    intro text htext
    rw [hget, List.find?_eq_none.2 fun entry hentry heq => ?_]
    · rfl
    · exact htext (List.mem_map.2 ⟨entry, List.mem_reverse.1 hentry, of_decide_eq_true heq⟩)
  have hhistory : ∀ entry ∈ historyKeys, Dict.get result entry.1.toList = some (value entry) := by
    intro entry hentry
    rw [hget]
    cases hfind : historyKeys.reverse.find? fun other => name other = entry.1.toList with
    | none =>
      exact absurd (decide_eq_true rfl)
        (List.find?_eq_none.1 hfind entry (List.mem_reverse.2 hentry))
    | some other =>
      have hname : name other = name entry := by simpa using List.find?_some hfind
      rw [List.inj_on_of_nodup_map nodup_historyKeys
        (List.mem_reverse.1 (List.mem_of_find?_eq_some hfind)) hentry hname]
      rfl
  have hnodup : (result.map Prod.fst).Nodup := by
    have hfold : ∀ (entries : List (String × String)) (d : Fields F), (d.map Prod.fst).Nodup →
        ((entries.foldl (fun d entry => Dict.set (name entry) (value entry) d) d).map
          Prod.fst).Nodup := by
      intro entries
      induction entries with
      | nil => exact fun _ h => h
      | cons entry entries ih => exact fun d h => ih _ (Dict.nodup_keys_set _ _ h)
    exact hfold _ _ (nodup_update patch hexisting.nodup)
  have hlist : ∀ entry ∈ historyKeys,
      py.listAt result entry.1 = some (py.mergedHistory existing patch entry) :=
    fun entry hentry => listAt_of_get (hhistory entry hentry)
  refine ⟨result, ?_, ⟨hnodup, fun entry hentry => ?_, fun entry hentry => ?_⟩, hhistory, hplain,
    fun hsub => ?_⟩
  · rw [Encoding.mergeEvidenceMetadata, mergeHistories_eq hexisting.lists hpatch.lists,
      Option.map_some]
    -- neither id is a history, so that the patch or what was there stands already
    have hlatest : py.takeOver existing patch "latest_ingest_run_id" result = result :=
      takeOver_eq_self (hplain _ (by unfold IsPlain; decide))
    have hcurrent : py.takeOver existing patch "current_ingest_run_id" result = result :=
      takeOver_eq_self (hplain _ (by unfold IsPlain; decide))
    refine congrArg some ?_
    show py.takeOver existing patch "current_ingest_run_id"
      (py.takeOver existing patch "latest_ingest_run_id" result) = result
    rw [hlatest, hcurrent]
  · rw [hlist entry hentry]
    rfl
  · rw [Encoding.history, hlist entry hentry, Option.getD_some]
    exact dicts_mergeListByKey (dicts_histories hexisting hpatch hentry)
  · have hupdate : (update existing patch).map Prod.fst = existing.map Prod.fst :=
      Dict.keys_foldl_set_of_mem Prod.fst Prod.snd fun entry hentry =>
        hsub entry.1 (.inl (List.mem_map_of_mem hentry))
    rw [← hupdate]
    refine Dict.keys_foldl_set_of_mem name value fun entry hentry => ?_
    rw [hupdate]
    exact hsub _ (.inr (not_not_intro (List.mem_map.2 ⟨entry, hentry, rfl⟩)))

theorem history_of_get {metadata : Fields F} {name : String}
    (h : Dict.get metadata name.toList = some (.arr items)) : py.history metadata name = items := by
  rw [Encoding.history, listAt_of_get h, Option.getD_some]

/-- One merge keeps everything where ids and texts are apart, and only there. -/
theorem merges_iff_apart (hexisting : py.WellFormed existing) (hpatch : py.WellFormed patch)
    (h : py.mergeEvidenceMetadata existing patch = some result) :
    py.Merges existing patch result ↔ ∀ entry ∈ historyKeys,
      py.Apart entry.2 (py.history existing entry.1 ++ py.history patch entry.1) := by
  obtain ⟨result', hresult, -, hhistory, hplain, -⟩ := mergeEvidenceMetadata_spec hexisting hpatch
  cases Option.some.inj (h.symm.trans hresult)
  constructor
  · intro hmerges entry hentry
    have hmerged := hmerges.histories entry hentry
    rw [history_of_get (hhistory entry hentry)] at hmerged
    exact (merged_iff_apart (dicts_histories hexisting hpatch hentry)).1 hmerged
  · refine fun hapart => ⟨fun entry hentry => ?_, hplain⟩
    rw [history_of_get (hhistory entry hentry)]
    exact (merged_iff_apart (dicts_histories hexisting hpatch hentry)).2 (hapart entry hentry)

/-- The same snapshot once more. -/
theorem mergeEvidenceMetadata_again (hexisting : py.WellFormed existing)
    (hpatch : py.WellFormed patch)
    (hapart : ∀ entry ∈ historyKeys, py.Apart entry.2 (py.history existing entry.1 ++ py.history patch entry.1))
    (h : py.mergeEvidenceMetadata existing patch = some result) :
    py.mergeEvidenceMetadata result patch = some result := by
  obtain ⟨result', hresult, hwell, hhistory, hplain, -⟩ :=
    mergeEvidenceMetadata_spec hexisting hpatch
  cases Option.some.inj (h.symm.trans hresult)
  obtain ⟨again, hagain, hwell', hhistory', hplain', hkeys⟩ := mergeEvidenceMetadata_spec hwell hpatch
  have hmem : ∀ name, name ∈ patch.map Prod.fst ∨ ¬ IsPlain name → name ∈ result.map Prod.fst := by
    intro name hname
    by_contra hnot
    rw [← Dict.get_eq_none] at hnot
    by_cases hplainName : IsPlain name
    · rw [hplain name hplainName, Option.or_eq_none_iff, Dict.get_eq_none] at hnot
      exact hname.elim hnot.1 fun h => h hplainName
    · obtain ⟨entry, hentry, rfl⟩ := List.mem_map.1 (not_not.1 hplainName)
      rw [hhistory entry hentry] at hnot
      cases hnot
  rw [hagain]
  refine congrArg some (dict_ext hwell'.nodup (hkeys hmem) fun name => ?_)
  by_cases hname : IsPlain name
  · rw [hplain' name hname, hplain name hname]
    cases Dict.get patch name <;> rfl
  · obtain ⟨entry, hentry, rfl⟩ := List.mem_map.1 (not_not.1 hname)
    rw [hhistory' entry hentry, hhistory entry hentry, Encoding.mergedHistory,
      history_of_get (hhistory entry hentry)]
    exact congrArg (fun items => some (Json.arr items))
      (mergeListByKey_again (dicts_histories hexisting hpatch hentry) (hapart entry hentry))

/-- **Snapshots are combined without loss exactly where no id is the text of an entry
without one.** -/
theorem combinesSnapshots_iff_apart {other : Fields F} (hexisting : py.WellFormed existing)
    (hpatch : py.WellFormed patch) (hother : py.WellFormed other) :
    py.CombinesSnapshots existing patch other ↔ py.ApartIn existing patch other := by
  obtain ⟨result, hresult, hwell, hhistory, hplain, -⟩ :=
    mergeEvidenceMetadata_spec hexisting hpatch
  obtain ⟨final, hfinal, -, hhistory', hplain', -⟩ := mergeEvidenceMetadata_spec hwell hother
  constructor
  · intro hcombines entry hentry
    obtain ⟨final', hfinal', hmerges⟩ := hcombines.after result hresult
    have hafter := (merges_iff_apart hwell hother hfinal').1 hmerges entry hentry
    obtain ⟨result', hresult', hmerges'⟩ := hcombines.merges
    cases Option.some.inj (hresult.symm.trans hresult')
    -- the merged history has an entry for every one that was merged
    have hidentities := (hmerges'.histories entry hentry).identities
    refine hafter.mono fun a ha => ?_
    rcases List.mem_append.1 ha with ha | ha
    · have hmem : py.identity entry.2 a ∈ firstKeys (py.identity entry.2)
          (py.history existing entry.1 ++ py.history patch entry.1) := mem_firstKeys.2 ⟨a, ha, rfl⟩
      rw [← hidentities] at hmem
      obtain ⟨row, hrow, hid⟩ := List.mem_map.1 hmem
      exact ⟨row, List.mem_append_left _ hrow, hid⟩
    · exact ⟨a, List.mem_append_right _ ha, rfl⟩
  · intro hapart
    have hfirst : ∀ entry ∈ historyKeys,
        py.Apart entry.2 (py.history existing entry.1 ++ py.history patch entry.1) :=
      fun entry hentry => (hapart entry hentry).mono fun a ha => ⟨a, List.mem_append_left _ ha, rfl⟩
    have hafter : ∀ entry ∈ historyKeys,
        py.Apart entry.2 (py.history result entry.1 ++ py.history other entry.1) := by
      intro entry hentry
      rw [history_of_get (hhistory entry hentry)]
      exact apart_after (dicts_histories hexisting hpatch hentry) (hapart entry hentry)
    refine ⟨⟨result, hresult, (merges_iff_apart hexisting hpatch hresult).2 hfirst⟩,
      fun result' h => mergeEvidenceMetadata_again hexisting hpatch hfirst h,
      fun result' h => ?_, fun hdisjoint r f r' f' hr hf hr' hf' => ?_⟩
    · cases Option.some.inj (hresult.symm.trans h)
      exact ⟨final, hfinal, (merges_iff_apart hwell hother hfinal).2 hafter⟩
    · cases Option.some.inj (hresult.symm.trans hr)
      cases Option.some.inj (hfinal.symm.trans hf)
      obtain ⟨result', hresult', hwell', hhistory₂, hplain₂, -⟩ :=
        mergeEvidenceMetadata_spec hexisting hother
      cases Option.some.inj (hresult'.symm.trans hr')
      obtain ⟨final', hfinal', -, hhistory₃, hplain₃, -⟩ := mergeEvidenceMetadata_spec hwell' hpatch
      cases Option.some.inj (hfinal'.symm.trans hf')
      refine ⟨fun entry hentry => ?_, fun name hname => ?_⟩
      · rw [history_of_get (hhistory' entry hentry), history_of_get (hhistory₃ entry hentry),
          Encoding.mergedHistory, Encoding.mergedHistory, history_of_get (hhistory entry hentry),
          history_of_get (hhistory₂ entry hentry)]
        exact mergeListByKey_comm (dicts_histories hexisting hpatch hentry)
          (hother.dicts entry hentry) (hapart entry hentry) (hdisjoint.histories entry hentry)
      · rw [hplain' name hname, hplain name hname, hplain₃ name hname, hplain₂ name hname]
        by_cases hmem : name ∈ patch.map Prod.fst
        · rw [Dict.get_eq_none.2 (hdisjoint.plain name hname hmem)]
          rfl
        · rw [Dict.get_eq_none.2 hmem]
          rfl

end

/-! ### An id that is a text -/

instance {F : Type} : DecidablePred (IsDict (F := F))
  | .obj d => inferInstanceAs (Decidable (d.map Prod.fst).Nodup)
  | .null => inferInstanceAs (Decidable True)
  | .bool _ => inferInstanceAs (Decidable True)
  | .int _ => inferInstanceAs (Decidable True)
  | .float _ => inferInstanceAs (Decidable True)
  | .str _ => inferInstanceAs (Decidable True)
  | .arr _ => inferInstanceAs (Decidable True)

def Encoding.hasId {F V : Type} (py : Encoding F V) (key : String) : Json F → Bool
  | .obj d => py.orEmpty (field d key) ≠ []
  | _ => true

/-- Where every entry has an id, no text is compared with one. -/
theorem apart_of_hasId {F V : Type} {py : Encoding F V} {key : String} {items : List (Json F)}
    (h : ∀ item ∈ items, py.hasId key item = true) : py.Apart key items := by
  intro a _ b hb s _ hpayload
  have hid := h b hb
  cases b with
  | obj d =>
    rw [identity_keyed (of_decide_eq_true hid)] at hpayload
    cases hpayload
  | _ => cases hpayload

def quoted (s : Text) : Text := '"' :: s ++ ['"']

/-- The JSON text of a dictionary of plain texts. -/
def textDumps (d : Fields Empty) : Text :=
  let entries := sorted Prod.fst false d
  let texts := entries.map fun entry =>
    match entry.2 with
    | .str s => quoted entry.1 ++ ": ".toList ++ quoted s
    | _ => quoted entry.1 ++ ": null".toList
  '{' :: List.intercalate ", ".toList texts ++ ['}']

/-- Histories of dictionaries of plain texts. -/
def textEncoding : Encoding Empty Text where
  toConversions := textConversions
  dumps := textDumps
  valueOf
    | .str s => s
    | _ => []

/-- Metadata with one run. -/
def oneRun (run : Fields Empty) : Fields Empty := [("ingest_runs".toList, .arr [.obj run])]

def runWith (id status : String) : Fields Empty :=
  [("run_id".toList, .str id.toList), ("status".toList, .str status.toList)]

theorem wellFormed_oneRun {run : Fields Empty} (h : (run.map Prod.fst).Nodup) :
    textEncoding.WellFormed (oneRun run) := by
  have hentries : ∀ entry ∈ historyKeys, textEncoding.listAt (oneRun run) entry.1 = some [] ∨
      textEncoding.listAt (oneRun run) entry.1 = some [.obj run] := by
    intro entry hentry
    fin_cases hentry
    exacts [.inl rfl, .inr rfl, .inl rfl, .inl rfl]
  refine ⟨List.nodup_singleton _, fun entry hentry => ?_, fun entry hentry item hitem => ?_⟩
  · rcases hentries entry hentry with hlist | hlist <;> rw [hlist] <;> rfl
  · rw [Encoding.history] at hitem
    rcases hentries entry hentry with hlist | hlist
    · rw [hlist] at hitem
      cases hitem
    · rw [hlist] at hitem
      exact List.mem_singleton.1 hitem ▸ h

theorem twoRuns_combine : textEncoding.CombinesSnapshots (oneRun (runWith "r1" "running"))
    (oneRun (runWith "r1" "failed")) (oneRun (runWith "r2" "running")) :=
  (combinesSnapshots_iff_apart (wellFormed_oneRun (by decide)) (wellFormed_oneRun (by decide))
    (wellFormed_oneRun (by decide))).2
    (fun entry hentry => apart_of_hasId (by revert entry; decide +kernel))

/-- A run without an id, and one whose id is the JSON text of that run: the merge makes one
run of the two. -/
theorem textId_not_combine : ¬ textEncoding.CombinesSnapshots
    (oneRun [("status".toList, .str "failed".toList)])
    (oneRun [("run_id".toList, .str "\x7b\"status\": \"failed\"\x7d".toList)]) [] := by
  intro h
  obtain ⟨result, hresult, hmerges⟩ := h.merges
  have hapart := (merges_iff_apart (wellFormed_oneRun (by decide)) (wellFormed_oneRun (by decide))
    hresult).1 hmerges ("ingest_runs", "run_id") (by decide)
  refine hapart _ (List.mem_append_right _ (List.mem_singleton.2 rfl)) _
    (List.mem_append_left _ (List.mem_singleton.2 rfl)) "\x7b\"status\": \"failed\"\x7d".toList ?_ ?_
  · decide +kernel
  · decide +kernel

end Kairon.Runs
