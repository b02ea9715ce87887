import Atho.Library.Lockstep
import Atho.Storage.AcceptedBlock

/-! The overlay of the validator answers every run of calls as a map of its own would. -/

namespace Atho

/-- A call of the overlay, or of a map in its place. -/
inductive MapCall where
  | get (key : UtxoKey)
  | remove (key : UtxoKey)
  | insert (entry : UtxoEntry)

inductive MapAnswer where
  | found (entry : Option UtxoEntry)
  | removed (result : Except ValidationError UtxoEntry)
  | inserted (result : Except ValidationError Unit)
  deriving DecidableEq

/-- A call that fails leaves the overlay as it was. -/
def UtxoOverlay.call (overlay : UtxoOverlay) : MapCall → MapAnswer × UtxoOverlay
  | .get key => (.found (overlay.get key), overlay)
  | .remove key =>
      match overlay.remove key with
      | .ok (entry, next) => (.removed (.ok entry), next)
      | .error err => (.removed (.error err), overlay)
  | .insert entry =>
      match overlay.insert entry with
      | .ok next => (.inserted (.ok ()), next)
      | .error err => (.inserted (.error err), overlay)

/-- A plain map of entries, for comparison: a removal takes what the key holds, an insertion needs a
key that holds nothing. -/
abbrev UtxoMap := Finmap fun _ : UtxoKey => UtxoEntry

def UtxoMap.call (map : UtxoMap) : MapCall → MapAnswer × UtxoMap
  | .get key => (.found (map.lookup key), map)
  | .remove key =>
      match map.lookup key with
      | some entry => (.removed (.ok entry), map.erase key)
      | none => (.removed (.error .missingUtxo), map)
  | .insert entry =>
      if entry.key ∈ map then (.inserted (.error .mempoolConflict), map)
      else (.inserted (.ok ()), Finmap.insert entry.key entry map)

namespace UtxoOverlay

variable {overlay : UtxoOverlay}

theorem exists_remove {key : UtxoKey}
    (hheld : (overlay.get key).isSome) : ∃ entry overlay', overlay.remove key = .ok (entry, overlay') := by
  unfold get at hheld
  unfold remove
  split
  · exact ⟨_, _, rfl⟩
  · next hadded =>
      rw [hadded] at hheld
      dsimp only at hheld
      split at hheld
      · cases hheld
      · next hremoved =>
          obtain ⟨entry, hentry⟩ := Option.isSome_iff_exists.mp hheld
          rw [if_neg hremoved, hentry]
          exact ⟨_, _, rfl⟩

theorem exists_insert {entry : UtxoEntry}
    (hfree : overlay.get entry.key = none) : ∃ overlay', overlay.insert entry = .ok overlay' := by
  have hclash : ¬(entry.key ∈ overlay.added ∨
      (entry.key ∉ overlay.removed ∧ (overlay.base.get entry.key).isSome)) := by
    unfold get at hfree
    split at hfree
    · cases hfree
    · next hadded =>
        rintro (hmem | ⟨hremoved, hheld⟩)
        · exact Finmap.lookup_eq_none.mp hadded hmem
        · rw [if_neg hremoved] at hfree
          rw [hfree] at hheld
          cases hheld
  rw [insert, dif_neg hclash]
  exact ⟨_, rfl⟩

theorem remove_eq_error {key : UtxoKey} {err : ValidationError}
    (hremove : overlay.remove key = .error err) :
    err = .missingUtxo ∧ overlay.get key = none := by
  refine ⟨?_, ?_⟩
  · unfold remove at hremove
    split at hremove
    · cases hremove
    · split at hremove
      · cases hremove
        rfl
      · split at hremove
        · cases hremove
          rfl
        · cases hremove
  · refine Option.not_isSome_iff_eq_none.mp fun hheld => ?_
    obtain ⟨entry, next, hok⟩ := exists_remove hheld
    rw [hok] at hremove
    cases hremove

theorem insert_eq_error {entry : UtxoEntry} {err : ValidationError}
    (hinsert : overlay.insert entry = .error err) :
    err = .mempoolConflict ∧ (overlay.get entry.key).isSome := by
  refine ⟨?_, ?_⟩
  · unfold insert at hinsert
    split at hinsert
    · cases hinsert
      rfl
    · cases hinsert
  · rw [← Option.ne_none_iff_isSome]
    intro hfree
    obtain ⟨next, hok⟩ := exists_insert hfree
    rw [hok] at hinsert
    cases hinsert

theorem base_call (step : MapCall) : (overlay.call step).2.base = overlay.base := by
  cases step with
  | get key => rfl
  | remove key =>
      rw [call]
      split
      · next entry next hremove =>
          unfold remove at hremove
          split at hremove
          · cases hremove
            rfl
          · split at hremove
            · cases hremove
            · split at hremove
              · cases hremove
              · cases hremove
                rfl
      · rfl
  | insert entry =>
      rw [call]
      split
      · next next hinsert =>
          unfold insert at hinsert
          split at hinsert
          · cases hinsert
          · cases hinsert
            rfl
      · rfl

/-- The map holds what the overlay shows. -/
def Shows (overlay : UtxoOverlay) (map : UtxoMap) : Prop :=
  ∀ key, overlay.get key = map.lookup key

variable {map : UtxoMap}

theorem Shows.call (hshows : overlay.Shows map) (step : MapCall) :
    (overlay.call step).1 = (map.call step).1 ∧
      (overlay.call step).2.Shows (map.call step).2 := by
  cases step with
  | get key => exact ⟨congrArg MapAnswer.found (hshows key), hshows⟩
  | remove key =>
      rw [UtxoOverlay.call, UtxoMap.call, ← hshows key]
      cases hremove : overlay.remove key with
      | error err =>
          obtain ⟨rfl, hfree⟩ := remove_eq_error hremove
          rw [hfree]
          exact ⟨rfl, hshows⟩
      | ok found =>
          obtain ⟨entry, next⟩ := found
          obtain ⟨hheld, hnext⟩ := remove_ok hremove
          rw [hheld]
          refine ⟨rfl, fun other => ?_⟩
          change next.get other = (map.erase key).lookup other
          rw [hnext]
          by_cases hother : other = key
          · subst hother
            rw [Function.update_self, Finmap.lookup_erase]
          · rw [Function.update_of_ne hother, Finmap.lookup_erase_ne hother, hshows]
  | insert entry =>
      rw [UtxoOverlay.call, UtxoMap.call]
      cases hinsert : overlay.insert entry with
      | error err =>
          obtain ⟨rfl, hheld⟩ := insert_eq_error hinsert
          rw [hshows, Finmap.lookup_isSome] at hheld
          rw [if_pos hheld]
          exact ⟨rfl, hshows⟩
      | ok next =>
          obtain ⟨hfree, hnext⟩ := insert_ok hinsert
          rw [hshows, Finmap.lookup_eq_none] at hfree
          rw [if_neg hfree]
          refine ⟨rfl, fun other => ?_⟩
          change next.get other = (Finmap.insert entry.key entry map).lookup other
          rw [hnext]
          by_cases hother : other = entry.key
          · subst hother
            rw [Function.update_self, Finmap.lookup_insert]
          · rw [Function.update_of_ne hother, Finmap.lookup_insert_of_ne _ hother, hshows]

/-- Over every base set, every run of calls is answered as the entries of that set, taken as a map
of their own, answer it; the map then holds what the overlay shows, and the base is what it was. -/
theorem overlay_simulates_map (base : UtxoSet) (calls : List MapCall) :
    (Lockstep.run UtxoOverlay.call (new base) calls).1 =
        (Lockstep.run UtxoMap.call base.entries calls).1 ∧
      (Lockstep.run UtxoOverlay.call (new base) calls).2.Shows
        (Lockstep.run UtxoMap.call base.entries calls).2 ∧
      (Lockstep.run UtxoOverlay.call (new base) calls).2.base = base := by
  have hstart : (new base).Shows base.entries := fun key => congrFun (get_new base) key
  obtain ⟨hanswers, hshows⟩ := Lockstep.run_eq (fun step hshows => hshows.call step) hstart calls
  refine ⟨hanswers, hshows, ?_⟩
  exact @Lockstep.run_invariant _ _ _ UtxoOverlay.call (new base) (fun overlay => overlay.base = base)
    (fun step hbase => (base_call step).trans hbase) rfl calls

end UtxoOverlay

end Atho
