import Atho.Library.Codec

/-! Finite tables that are read in the order of their keys. -/

/-- Keys that a table compares by the bytes they are stored under. -/
class TableKey (κ : Type) where
  keyBytes : κ → List UInt8
  keyBytes_injective : Function.Injective keyBytes

namespace TableKey

variable {κ : Type} [TableKey κ]

def rank (key : κ) : List Nat := (keyBytes key).map UInt8.toNat

theorem rank_injective : Function.Injective (rank : κ → List Nat) := fun _ _ heq =>
  keyBytes_injective (List.map_injective_iff.mpr (fun _ _ => UInt8.toNat_inj.mp) heq)

/-- The order of the keys; it decides nothing but the order of the entries. -/
def Below (left right : κ) : Prop := rank left ≤ rank right

instance : DecidableRel (Below : κ → κ → Prop) := fun left right =>
  inferInstanceAs (Decidable (rank left ≤ rank right))

instance : Std.Total (Below : κ → κ → Prop) := ⟨fun left right => le_total (rank left) (rank right)⟩

instance : IsTrans κ Below := ⟨fun _ _ _ => le_trans⟩

instance : Std.Antisymm (Below : κ → κ → Prop) :=
  ⟨fun _ _ hle hge => rank_injective (le_antisymm hle hge)⟩

instance : TableKey (Bytes width) := ⟨Bytes.toList, fun _ _ => Bytes.ext⟩

end TableKey

namespace Finmap

open TableKey

variable {κ ν : Type} [TableKey κ]

/-- The keys of a table, the lowest first. -/
def sortedKeys (table : Finmap fun _ : κ => ν) : List κ :=
  Quotient.liftOn table.keys.val (List.insertionSort Below) fun left right hperm =>
    ((List.perm_insertionSort Below left).trans
      (hperm.trans (List.perm_insertionSort Below right).symm)).eq_of_pairwise'
      (List.pairwise_insertionSort Below left) (List.pairwise_insertionSort Below right)

theorem coe_sortedKeys (table : Finmap fun _ : κ => ν) :
    (table.sortedKeys : Multiset κ) = table.keys.val := by
  unfold sortedKeys
  induction table.keys.val using Quotient.inductionOn with
  | h keys => exact Multiset.coe_eq_coe.mpr (List.perm_insertionSort Below keys)

variable [DecidableEq κ]

/-- The entries of a table in the order of their keys. -/
def cursor (table : Finmap fun _ : κ => ν) : List (κ × ν) :=
  table.sortedKeys.filterMap fun key => (table.lookup key).map (key, ·)

theorem mem_cursor {table : Finmap fun _ : κ => ν} {key : κ} {value : ν} :
    (key, value) ∈ table.cursor ↔ table.lookup key = some value := by
  have hkey : key ∈ table.sortedKeys ↔ key ∈ table := by
    rw [← Multiset.mem_coe, coe_sortedKeys, Finset.mem_val, mem_keys]
  simp only [cursor, List.mem_filterMap, Option.map_eq_some_iff, Prod.mk.injEq]
  constructor
  · rintro ⟨_, -, _, hlookup, rfl, rfl⟩
    exact hlookup
  · intro hlookup
    exact ⟨key, hkey.mpr (mem_of_lookup_eq_some hlookup), value, hlookup, rfl, rfl⟩

end Finmap
