import BinCodec.Proofs.Nesting
import BinCodec.Proofs.WireTree
import Mathlib.Data.List.Perm.Basic

/-!
# Trees up to the order of entries

The order in which the entries of a map are sent means nothing to the server. `Wire.Reordered`
is equality of wire trees up to that order, at any depth. Reordered trees are written with the
same number of bytes (`Reordered.length_encode`), and if one of them fits the headers then so
does the other (`Reordered.fits`).
-/

namespace BinCodec.Wire

/-- Trees that differ at most in the order of the entries of maps. Arrays correspond item by
item, maps entry by entry after a permutation. -/
inductive Reordered : Wire → Wire → Prop
  | refl (w : Wire) : Reordered w w
  | array {xs ys : List Wire} (length : xs.length = ys.length)
    (items : ∀ p ∈ xs.zip ys, Reordered p.1 p.2) : Reordered (.array xs) (.array ys)
  | map {order : MapOrder} {es fs gs : List (Wire × Wire)} (length : es.length = fs.length)
    (keys : ∀ p ∈ es.zip fs, Reordered p.1.1 p.2.1)
    (values : ∀ p ∈ es.zip fs, Reordered p.1.2 p.2.2) (perm : fs.Perm gs) :
    Reordered (.map order es) (.map order gs)

def EntryReordered (e f : Wire × Wire) : Prop := e.1.Reordered f.1 ∧ e.2.Reordered f.2

theorem length_flatten_of_forall₂ {α : Type} {f : α → Bytes} {xs ys : List α}
    (h : List.Forall₂ (fun x y => (f x).length = (f y).length) xs ys) :
    (xs.map f).flatten.length = (ys.map f).flatten.length := by
  induction h with
  | nil => rfl
  | cons first _ ih =>
    rw [List.map_cons, List.map_cons, List.flatten_cons, List.flatten_cons, List.length_append,
      List.length_append, first, ih]

namespace Reordered

variable {v w : Wire} {xs ys : List Wire} {order : MapOrder} {es fs gs : List (Wire × Wire)}

theorem of_items (h : List.Forall₂ Reordered xs ys) : Reordered (.array xs) (.array ys) := by
  obtain ⟨length, items⟩ := List.forall₂_iff_zip.mp h
  exact .array length fun p hp => items hp

theorem of_entries (h : List.Forall₂ EntryReordered es fs) (perm : fs.Perm gs) :
    Reordered (.map order es) (.map order gs) := by
  obtain ⟨length, entries⟩ := List.forall₂_iff_zip.mp h
  exact .map length (fun p hp => (entries hp).1) (fun p hp => (entries hp).2) perm

theorem symm (h : v.Reordered w) : w.Reordered v := by
  induction h with
  | refl w => exact .refl w
  | @array xs ys length _ ih =>
    have items : List.Forall₂ (flip Reordered) xs ys :=
      List.forall₂_iff_zip.mpr ⟨length, fun hp => ih _ hp⟩
    exact of_items items.flip
  | @map order es fs gs length _ _ perm ihk ihv =>
    have entries : List.Forall₂ (flip EntryReordered) es fs :=
      List.forall₂_iff_zip.mpr ⟨length, fun hp => ⟨ihk _ hp, ihv _ hp⟩⟩
    obtain ⟨hs, related, perm'⟩ := List.perm_comp_forall₂ perm.symm entries.flip
    exact of_entries related perm'

/-- No header depends on the order of entries. -/
theorem length_encode (h : v.Reordered w) : v.encode.length = w.encode.length := by
  induction h with
  | refl w => rfl
  | @array xs ys length _ ih =>
    have items : List.Forall₂ (fun x y => x.encode.length = y.encode.length) xs ys :=
      List.forall₂_iff_zip.mpr ⟨length, fun hp => ih _ hp⟩
    rw [encode, encode, encodeItems_eq_map, encodeItems_eq_map, length, List.length_append,
      List.length_append, length_flatten_of_forall₂ items]
  | @map order es fs gs length _ _ perm ihk ihv =>
    let entry (e : Wire × Wire) : Bytes := e.1.encode ++ e.2.encode
    have entries : List.Forall₂ (fun e f => (entry e).length = (entry f).length) es fs := by
      apply List.forall₂_iff_zip.mpr ⟨length, _⟩
      intro e f hp
      rw [List.length_append, List.length_append, ihk _ hp, ihv _ hp]
    have members : (es.map entry).flatten.length = (gs.map entry).flatten.length :=
      (length_flatten_of_forall₂ entries).trans (perm.map entry).flatten.length_eq
    rw [encode, encode, encodeEntries_eq_map, encodeEntries_eq_map, length, perm.length_eq,
      List.length_append, List.length_append, members]

theorem fits (h : v.Reordered w) (hv : v.Fits) : w.Fits := by
  induction h with
  | refl w => exact hv
  | @array xs ys length _ ih =>
    cases hv with
    | array size fit =>
      have items : List.Forall₂ (fun x y => x.Fits → y.Fits) xs ys :=
        List.forall₂_iff_zip.mpr ⟨length, fun hp => ih _ hp⟩
      apply Fits.array (length ▸ size)
      intro y hy
      obtain ⟨x, hx, fits⟩ := exists_of_forall₂ items hy
      exact fits (fit x hx)
  | @map order es fs gs length _ _ perm ihk ihv =>
    cases hv with
    | map size keys values =>
      have entries : List.Forall₂ (fun e f : Wire × Wire =>
          (e.1.Fits → f.1.Fits) ∧ (e.2.Fits → f.2.Fits)) es fs :=
        List.forall₂_iff_zip.mpr ⟨length, fun hp => ⟨ihk _ hp, ihv _ hp⟩⟩
      apply Fits.map (perm.length_eq ▸ length ▸ size)
      · intro f hf
        obtain ⟨e, he, fits⟩ := exists_of_forall₂ entries (perm.mem_iff.mpr hf)
        exact fits.1 (keys e he)
      · intro f hf
        obtain ⟨e, he, fits⟩ := exists_of_forall₂ entries (perm.mem_iff.mpr hf)
        exact fits.2 (values e he)

end Reordered

end BinCodec.Wire
