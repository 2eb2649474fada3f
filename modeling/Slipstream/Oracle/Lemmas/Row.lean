import Slipstream.Oracle.Impl.Diff
import Mathlib

/-!
This module contains what the text of a row says about the row: rows without the marks of their
columns inside a text are written alike exactly if they agree once their texts are decoded.
-/

namespace Slipstream
namespace Oracle

variable {R : Type}

def Value.decoded : Value R → Value R
  | .text t => .text (fromUtf8Lossy t)
  | v => v

def decodedRow (cells : Cells R) : Cells R := cells.map fun c => (c.1, c.2.decoded)

/-- What stands between a text and the value of the column `next`. -/
def separator (next : String) : Bytes := utf8 "'|" ++ utf8 next ++ utf8 "="

/-- No text of the row contains what ends it, other than at its end. -/
def Separable : Cells R → Prop
  | [] => True
  | (_, v) :: rest =>
    (∀ t next, v = .text t → rest.head?.map Prod.fst = some next →
      ¬separator next <:+: (fromUtf8Lossy t ++ separator next).dropLast)
    ∧ Separable rest

/-- How Rust prints a float: as nothing else is printed, and without quotes and bars. -/
structure RealOps.Lawful (ops : RealOps R) : Prop where
  injective : Function.Injective ops.debug
  plain : ∀ r, 39 ∉ ops.debug r ∧ 124 ∉ ops.debug r
  real : ∀ r, ops.debug r ≠ utf8 "NULL" ∧ ∀ i : Int, ops.debug r ≠ utf8 (toString i)

section Split

theorem split_at_byte {b : UInt8} {x y s s' : Bytes} (hx : b ∉ x) (hy : b ∉ y)
    (h : x ++ b :: s = y ++ b :: s') : x = y ∧ s = s' := by
  induction x generalizing y with
  | nil =>
    cases y with
    | nil => exact ⟨rfl, (List.cons.inj h).2⟩
    | cons c y => exact absurd (List.mem_cons.mpr (Or.inl (List.cons.inj h).1)) hy
  | cons c x ih =>
    rw [List.mem_cons, not_or] at hx
    cases y with
    | nil => exact absurd (List.cons.inj h).1.symm hx.1
    | cons d y =>
      rw [List.mem_cons, not_or] at hy
      obtain ⟨rfl, hrest⟩ := List.cons.inj h
      obtain ⟨rfl, hs⟩ := ih hx.2 hy.2 hrest
      exact ⟨rfl, hs⟩

theorem length_le_of_split {u v sep s s' : Bytes} (hsep : sep ≠ [])
    (hv : ¬sep <:+: (v ++ sep).dropLast) (h : u ++ sep ++ s = v ++ sep ++ s')
    : v.length ≤ u.length := by
  by_contra hlt
  -- A shorter text would put its end mark inside the longer one.
  apply hv
  have hlen : (u ++ sep).length ≤ (v ++ sep).dropLast.length := by
    have := List.length_pos_of_ne_nil hsep
    simp only [List.length_append, List.length_dropLast]
    omega
  have hleft : u ++ sep <+: u ++ sep ++ s := List.prefix_append _ _
  have hright : (v ++ sep).dropLast <+: u ++ sep ++ s := by
    rw [h]
    exact (List.dropLast_prefix _).trans (List.prefix_append _ _)
  exact (List.suffix_append u sep).isInfix.trans (List.prefix_of_prefix_length_le hleft hright hlen).isInfix

theorem split_at_separator {u v sep s s' : Bytes} (hsep : sep ≠ [])
    (hu : ¬sep <:+: (u ++ sep).dropLast) (hv : ¬sep <:+: (v ++ sep).dropLast)
    (h : u ++ sep ++ s = v ++ sep ++ s') : u = v ∧ s = s' := by
  have hlen := Nat.le_antisymm (length_le_of_split hsep hu h.symm) (length_le_of_split hsep hv h)
  rw [List.append_assoc, List.append_assoc] at h
  obtain ⟨rfl, hrest⟩ := List.append_inj h hlen
  exact ⟨rfl, List.append_cancel_left hrest⟩

end Split

section Value

theorem utf8_inj {s t : String} (h : utf8 s = utf8 t) : s = t := by
  have hbytes : s.toByteArray.data = t.toByteArray.data := Array.toList_inj.mp h
  exact String.toByteArray_inj.mp (ByteArray.ext hbytes)

theorem utf8_append (s t : String) : utf8 (s ++ t) = utf8 s ++ utf8 t := by
  unfold utf8 String.toUTF8
  rw [String.toByteArray_append, ByteArray.data_append, Array.toList_append]

theorem mem_utf8_repr (h : b ∈ utf8 (Nat.repr n)) : 48 ≤ b ∧ b ≤ 57 := by
  unfold utf8 String.toUTF8 at h
  rw [Nat.repr_eq_ofList_toDigits, String.toByteArray_ofList, List.utf8Encode] at h
  rw [List.data_toByteArray, List.toList_toArray, List.mem_flatMap] at h
  obtain ⟨c, hc, hb⟩ := h
  have hdigit := Nat.isDigit_of_mem_toDigits (by decide) (by decide) hc
  simp only [Char.isDigit, Bool.and_eq_true, decide_eq_true_eq, ge_iff_le, UInt32.le_iff_toNat_le] at hdigit
  obtain ⟨hlow, hhigh⟩ : 48 ≤ c.val.toNat ∧ c.val.toNat ≤ 57 := hdigit
  have hsize : c.utf8Size = 1 := by
    rw [Char.utf8Size_eq_one_iff, UInt32.le_iff_toNat_le]
    exact Nat.le_trans hhigh (by decide)
  rw [String.utf8EncodeChar_eq_singleton hsize, List.mem_singleton] at hb
  rw [hb, UInt8.le_iff_toNat_le, UInt8.le_iff_toNat_le, UInt32.toNat_toUInt8, Nat.mod_eq_of_lt (by omega)]
  exact ⟨hlow, hhigh⟩

theorem mem_utf8_int {i : Int} (h : b ∈ utf8 (toString i)) : b = 45 ∨ 48 ≤ b ∧ b ≤ 57 := by
  change b ∈ utf8 i.repr at h
  rw [Int.repr_eq_if] at h
  split at h
  . exact Or.inr (mem_utf8_repr h)
  . rw [utf8_append, List.mem_append] at h
    rcases h with h | h
    . have : utf8 "-" = [45] := by decide +kernel
      rw [this] at h
      exact Or.inl (List.mem_singleton.mp h)
    . exact Or.inr (mem_utf8_repr h)

theorem hexDigit_toNat {n : UInt8} (h : n.toNat < 16)
    : (hexDigit n).toNat = if n.toNat < 10 then 48 + n.toNat else 87 + n.toNat := by
  have hten : n < 10 ↔ n.toNat < 10 := UInt8.lt_iff_toNat_lt
  unfold hexDigit
  simp only [hten]
  split
  all_goals
    rw [UInt8.toNat_add, Nat.mod_eq_of_lt]
    . simp
    . simp
      omega

theorem toNat_nibbles (b : UInt8)
    : (b / 16).toNat = b.toNat / 16 ∧ (b % 16).toNat = b.toNat % 16 ∧ b.toNat < 256 :=
  ⟨UInt8.toNat_div b 16, UInt8.toNat_mod b 16, b.toNat_lt⟩

theorem byte_eq_of_hex {b c : UInt8} (hhigh : hexDigit (b / 16) = hexDigit (c / 16))
    (hlow : hexDigit (b % 16) = hexDigit (c % 16)) : b = c := by
  obtain ⟨hb, hb', hblt⟩ := toNat_nibbles b
  obtain ⟨hc, hc', hclt⟩ := toNat_nibbles c
  have hhigh := congrArg UInt8.toNat hhigh
  have hlow := congrArg UInt8.toNat hlow
  rw [hexDigit_toNat (by omega), hexDigit_toNat (by omega)] at hhigh hlow
  apply UInt8.toNat_inj.mp
  split at hhigh <;> split at hhigh <;> split at hlow <;> split at hlow <;> omega

def hex (bytes : Bytes) : Bytes :=
  bytes.flatMap fun byte => [hexDigit (byte / 16), hexDigit (byte % 16)]

theorem hex_inj {x y : Bytes} (h : hex x = hex y) : x = y := by
  induction x generalizing y with
  | nil =>
    cases y with
    | nil => rfl
    | cons c y => cases h
  | cons b x ih =>
    cases y with
    | nil => cases h
    | cons c y =>
      obtain ⟨hhigh, hrest⟩ := List.cons.inj h
      obtain ⟨hlow, hrest⟩ := List.cons.inj hrest
      rw [byte_eq_of_hex hhigh hlow, ih hrest]

theorem bar_not_mem_hex (bytes : Bytes) : 124 ∉ hex bytes := by
  intro h
  obtain ⟨b, -, hb⟩ := List.mem_flatMap.mp h
  obtain ⟨hdiv, hmod, hlt⟩ := toNat_nibbles b
  rcases List.mem_pair.mp hb with hb | hb
  all_goals
    have hb := congrArg UInt8.toNat hb
    rw [hexDigit_toNat (by omega)] at hb
    change 124 = _ at hb
    split at hb <;> omega

variable {ops : RealOps R}

theorem canonicalValue_null : canonicalValue ops .null = [78, 85, 76, 76] :=
  show utf8 "NULL" = _ by decide +kernel

theorem canonicalValue_blob (bytes : Bytes)
    : canonicalValue ops (.blob bytes) = 120 :: 39 :: (hex bytes ++ [39]) := rfl

theorem not_mem_int {i : Int} {b : UInt8} (h : ¬(b = 45 ∨ 48 ≤ b ∧ b ≤ 57))
    : b ∉ canonicalValue ops (.integer i) :=
  fun hmem => h (mem_utf8_int hmem)

theorem bar_not_mem (hreals : ops.Lawful) (v : Value R) (hv : ∀ t, v ≠ .text t)
    : 124 ∉ canonicalValue ops v := by
  cases v with
  | null => simp [canonicalValue_null]
  | integer i => exact not_mem_int (by decide)
  | real r => exact (hreals.plain r).2
  | text t => exact absurd rfl (hv t)
  | blob bytes => simp [canonicalValue_blob, bar_not_mem_hex]

theorem canonicalValue_inj (hreals : ops.Lawful) {v w : Value R} (hv : ∀ t, v ≠ .text t)
    (hw : ∀ t, w ≠ .text t) (h : canonicalValue ops v = canonicalValue ops w) : v = w := by
  have hnull : ¬39 ∈ canonicalValue ops .null := by simp [canonicalValue_null]
  have hint : ∀ i, ¬39 ∈ canonicalValue ops (.integer i) := fun i => not_mem_int (by decide)
  have hreal : ∀ r, ¬39 ∈ canonicalValue ops (.real r) := fun r => (hreals.plain r).1
  have hblob : ∀ b, 39 ∈ canonicalValue ops (.blob b) := fun b => by simp [canonicalValue_blob]
  have hletter : ∀ i, canonicalValue ops .null ≠ canonicalValue ops (.integer i) := by
    intro i heq
    have hmem : 78 ∈ canonicalValue ops .null := by simp [canonicalValue_null]
    rw [heq] at hmem
    exact not_mem_int (by decide) hmem
  cases v with
  | text t => exact absurd rfl (hv t)
  | null =>
    cases w with
    | null => rfl
    | integer i => exact absurd h (hletter i)
    | real r => exact absurd h.symm (hreals.real r).1
    | text t => exact absurd rfl (hw t)
    | blob b => exact absurd (h ▸ hblob b) hnull
  | integer i =>
    cases w with
    | null => exact absurd h.symm (hletter i)
    | integer j => rw [Int.repr_inj.mp (utf8_inj h)]
    | real r => exact absurd h.symm ((hreals.real r).2 i)
    | text t => exact absurd rfl (hw t)
    | blob b => exact absurd (h ▸ hblob b) (hint i)
  | real r =>
    cases w with
    | null => exact absurd h (hreals.real r).1
    | integer i => exact absurd h ((hreals.real r).2 i)
    | real r' => rw [hreals.injective h]
    | text t => exact absurd rfl (hw t)
    | blob b => exact absurd (h ▸ hblob b) (hreal r)
  | blob b =>
    cases w with
    | null => exact absurd (h ▸ hblob b) hnull
    | integer i => exact absurd (h ▸ hblob b) (hint i)
    | real r => exact absurd (h ▸ hblob b) (hreal r)
    | text t => exact absurd rfl (hw t)
    | blob c =>
      rw [canonicalValue_blob, canonicalValue_blob, List.cons_inj_right, List.cons_inj_right,
        List.append_cancel_right_eq] at h
      rw [hex_inj h]

/-- Only a text starts with a quote. -/
theorem head_ne_quote (hreals : ops.Lawful) {v : Value R} (hv : ∀ t, v ≠ .text t) {s s' : Bytes}
    (h : canonicalValue ops v ++ 124 :: s = 39 :: s') : False := by
  have hhead : ∀ x : Bytes, 39 ∉ x → x ++ 124 :: s = 39 :: s' → False := by
    intro x hx h
    cases x with
    | nil => cases h
    | cons b x => exact hx (List.mem_cons.mpr (Or.inl (List.cons.inj h).1.symm))
  cases v with
  | null => exact hhead _ (by simp [canonicalValue_null]) h
  | integer i => exact hhead _ (not_mem_int (by decide)) h
  | real r => exact hhead _ (hreals.plain r).1 h
  | text t => exact hv t rfl
  | blob bytes => cases h

end Value

section Row

variable {ops : RealOps R}

theorem canonicalRow_cons (col : String) (v : Value R) (rest : Cells R)
    : canonicalRow ops ((col, v) :: rest)
        =
      utf8 col ++ utf8 "=" ++ (canonicalValue ops v ++ 124 :: canonicalRow ops rest) := by
  have hbar : utf8 "|" = [124] := by decide +kernel
  simp [canonicalRow, hbar]

theorem canonicalValue_text (t : Bytes)
    : canonicalValue ops (.text t) = 39 :: (fromUtf8Lossy t ++ [39]) := rfl

theorem canonicalRow_congr {r r' : Cells R} (h : decodedRow r = decodedRow r')
    : canonicalRow ops r = canonicalRow ops r' := by
  have hvalue : ∀ {v w : Value R}, v.decoded = w.decoded →
      canonicalValue ops v = canonicalValue ops w := by
    intro v w h
    cases v with
    | text t =>
      cases w with
      | text t' => rw [canonicalValue_text, canonicalValue_text, Value.text.inj h]
      | _ => cases h
    | _ => cases w <;> cases h; rfl
  induction r generalizing r' with
  | nil =>
    cases r' with
    | nil => rfl
    | cons c' rest' => cases h
  | cons c rest ih =>
    cases r' with
    | nil => cases h
    | cons c' rest' =>
      obtain ⟨hcell, hrest⟩ := List.cons.inj h
      obtain ⟨hcol, hdecoded⟩ := Prod.mk.inj hcell
      obtain ⟨col, v⟩ := c
      obtain ⟨col', v'⟩ := c'
      cases hcol
      rw [canonicalRow_cons, canonicalRow_cons, hvalue hdecoded, ih hrest]

theorem value_eq_of_text_eq (hreals : ops.Lawful) {v v' : Value R} {rest rest' : Cells R}
    (hcols : rest.map Prod.fst = rest'.map Prod.fst)
    (hv : Separable ((col, v) :: rest)) (hv' : Separable ((col, v') :: rest'))
    (h : canonicalValue ops v ++ 124 :: canonicalRow ops rest
      = canonicalValue ops v' ++ 124 :: canonicalRow ops rest')
    : v.decoded = v'.decoded ∧ canonicalRow ops rest = canonicalRow ops rest' := by
  by_cases htext : ∃ t, v = .text t <;> by_cases htext' : ∃ t, v' = .text t
  . obtain ⟨t, rfl⟩ := htext
    obtain ⟨t', rfl⟩ := htext'
    simp only [canonicalValue_text, List.cons_append, List.append_assoc, List.cons_inj_right,
      List.nil_append] at h
    cases rest with
    | nil =>
      cases rest' with
      | nil => exact ⟨congrArg Value.text (List.append_cancel_right h), rfl⟩
      | cons c' rest' => cases hcols
    | cons c rest =>
      cases rest' with
      | nil => cases hcols
      | cons c' rest' =>
        obtain ⟨next, w⟩ := c
        obtain ⟨next', w'⟩ := c'
        obtain ⟨rfl, -⟩ := List.cons.inj hcols
        have hmark : utf8 "'|" = [39, 124] := by decide +kernel
        have hsep : separator next ≠ [] := by simp [separator, hmark]
        have hcell : ∀ (t : Bytes) (w : Value R) (rest : Cells R),
            fromUtf8Lossy t ++ 39 :: 124 :: canonicalRow ops ((next, w) :: rest)
              = fromUtf8Lossy t ++ separator next
                ++ (canonicalValue ops w ++ 124 :: canonicalRow ops rest) := by
          intro t w rest
          simp [canonicalRow_cons, separator, hmark]
        rw [hcell, hcell] at h
        obtain ⟨ht, hrest⟩ := split_at_separator hsep (hv.1 t next rfl rfl) (hv'.1 t' next rfl rfl) h
        refine ⟨congrArg Value.text ht, ?_⟩
        rw [canonicalRow_cons, canonicalRow_cons, hrest]
  . obtain ⟨t, rfl⟩ := htext
    exact absurd h.symm fun h => head_ne_quote hreals (fun t' ht' => htext' ⟨t', ht'⟩) h
  . obtain ⟨t', rfl⟩ := htext'
    exact absurd h fun h => head_ne_quote hreals (fun t ht => htext ⟨t, ht⟩) h
  . have hplain := fun t ht => htext ⟨t, ht⟩
    have hplain' := fun t ht => htext' ⟨t, ht⟩
    obtain ⟨hvalue, hrest⟩ :=
      split_at_byte (bar_not_mem hreals v hplain) (bar_not_mem hreals v' hplain') h
    exact ⟨congrArg Value.decoded (canonicalValue_inj hreals hplain hplain' hvalue), hrest⟩

theorem decodedRow_eq_of_text_eq (hreals : ops.Lawful) {r r' : Cells R}
    (hcols : r.map Prod.fst = r'.map Prod.fst) (hr : Separable r) (hr' : Separable r')
    (h : canonicalRow ops r = canonicalRow ops r') : decodedRow r = decodedRow r' := by
  induction r generalizing r' with
  | nil =>
    cases r' with
    | nil => rfl
    | cons c' rest' => cases hcols
  | cons c rest ih =>
    cases r' with
    | nil => cases hcols
    | cons c' rest' =>
      obtain ⟨col, v⟩ := c
      obtain ⟨col', v'⟩ := c'
      obtain ⟨hcol, hnext⟩ := List.cons.inj hcols
      cases hcol
      rw [canonicalRow_cons, canonicalRow_cons] at h
      obtain ⟨hvalue, hrest⟩ := value_eq_of_text_eq hreals hnext hr hr' (List.append_cancel_left h)
      exact congrArg₂ List.cons (congrArg (Prod.mk col) hvalue) (ih hnext hr.2 hr'.2 hrest)

end Row
end Oracle
end Slipstream
