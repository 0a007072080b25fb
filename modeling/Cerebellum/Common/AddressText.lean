import Cerebellum.Lib.Scanf

/-!
# The text of an address

The configuration writes an address as octets with a character between them: four decimal numbers
with dots, or six hexadecimal numbers with colons. The parsers of `libs/common` read such a text
with `sscanf` and check that all numbers were read and that none is above `0xFF`. They do not check
what `sscanf` skips, nor what is left of the text.

A string of the source is a string of bytes; here it is a string of characters, a byte being the
character with that code.

## Main definitions

* `Cerebellum.Denotes`: the text is octets with the separator between them, and nothing else.
* `Cerebellum.ReadsExactly`: what the grammar says about a parser on a text.
* `Cerebellum.Accepts`: what such a parser accepts.
* `Cerebellum.Loose`: the texts with something else in them that such a parser accepts.

## Main results

* `Cerebellum.Denotes.accepts`: every text of octets is accepted, as these octets.
* `Cerebellum.readsExactly_iff`: a parser does what the grammar says if and only if the text is not
  loose.
-/

open Numerals Scanf

namespace Cerebellum

/-- The text is numerals of the base with the separator between them, each at most `255`. -/
structure AddressText (base : ℕ) (sep : Char) (text : String) (fields : List (List Char)) :
    Prop where
  text_eq : text.toList = [sep].intercalate fields
  numeral : ∀ field ∈ fields, IsNumeral base field
  le : ∀ field ∈ fields, ofDigits base field ≤ 255

/-- The text is `count` octets with the separator between them, and nothing else. -/
def Denotes (base : ℕ) (sep : Char) (count : ℕ) (text : String) (octets : List ℕ) : Prop :=
  ∃ fields, fields.length = count ∧ AddressText base sep text fields ∧
    octets = fields.map (ofDigits base)

/-- On this text the parser does what the grammar of octets says: it returns the value of the octets
that the text denotes, and every other text is an error. -/
def ReadsExactly {α : Type} (parse : String → Except String α) (base : ℕ) (sep : Char) (count : ℕ)
    (value : List ℕ → α) (text : String) : Prop :=
  ∀ a, parse text = .ok a ↔ ∃ octets, Denotes base sep count text octets ∧ a = value octets

/-- `sscanf` stores `count` octets from the text. -/
def Accepts (conv : Conversion) (sep : Char) (count : ℕ) (text : String) (octets : List ℕ) :
    Prop :=
  ∃ items rest, items.length = count ∧ Reading conv sep text.toList items rest ∧
    octets = items.map (fun item => (item.stored conv).toNat) ∧ ∀ octet ∈ octets, octet ≤ 255

/-- The number of the item is at most `255` after `strtoul` has negated it, for a minus sign, and
the 32 low bits have been stored. -/
def ReducesToOctet (conv : Conversion) (item : Item) : Prop :=
  item.magnitude conv < 2 ^ 64 ∧
    (if item.sign = ['-'] then (2 ^ 64 - item.magnitude conv) % 2 ^ 32
      else item.magnitude conv % 2 ^ 32) ≤ 255

/-- There is something in the item besides the digits of an octet: white space, a sign, `0x`, or a
number above `255`. -/
def Padded (conv : Conversion) (item : Item) : Prop :=
  item.space ≠ [] ∨ item.sign ≠ [] ∨ item.zeroX ≠ [] ∨ 255 < item.magnitude conv

/-- The text begins with `count` integers that are reduced to octets, with the separator between
them, but there is something besides: text after them, or in one of them. -/
def Loose (conv : Conversion) (sep : Char) (count : ℕ) (text : String) : Prop :=
  ∃ items rest, items.length = count ∧ Reading conv sep text.toList items rest ∧
    (∀ item ∈ items, ReducesToOctet conv item) ∧
    (rest ≠ [] ∨ ∃ item ∈ items, Padded conv item)

instance decidableReducesToOctet (conv : Conversion) (item : Item) :
    Decidable (ReducesToOctet conv item) :=
  inferInstanceAs (Decidable (_ ∧ _))

variable {conv : Conversion} {sep : Char} {count : ℕ} {text : String} {octets : List ℕ}
  {item : Item} {items : List Item} {fields : List (List Char)} {field : List Char}

theorem stored_le_iff : (item.stored conv).toNat ≤ 255 ↔ ReducesToOctet conv item := by
  rw [Item.toNat_stored, ReducesToOctet]
  by_cases hlarge : 2 ^ 64 ≤ item.magnitude conv
  · rw [if_pos hlarge]
    exact iff_of_false (by decide) fun h => absurd hlarge (Nat.not_le.mpr h.1)
  · rw [if_neg hlarge]
    exact (and_iff_right (Nat.not_le.mp hlarge)).symm

theorem not_padded_iff : ¬ Padded conv item ↔
    item.space = [] ∧ item.sign = [] ∧ item.zeroX = [] ∧ item.magnitude conv ≤ 255 := by
  simp only [Padded, not_or, not_not, Nat.not_lt]

theorem toNat_stored_of_octet (hsign : item.sign = []) (h : item.magnitude conv ≤ 255) :
    (item.stored conv).toNat = item.magnitude conv := by
  rw [Item.toNat_stored, if_neg (by omega), hsign, if_neg (List.cons_ne_nil _ _).symm,
    Nat.mod_eq_of_lt (by omega)]

/-! ### Texts of octets -/

/-- A text of octets is read as items of digits, up to its end. -/
theorem AddressText.reading (h : AddressText conv.base sep text fields) :
    Reading conv sep text.toList (fields.map fun field => { digits := field }) [] where
  input_eq := by
    have htext : (Item.text ∘ fun field : List Char => { digits := field }) = id := by
      funext field
      simp only [Function.comp_apply, Item.text, List.nil_append, id_eq]
    rw [List.map_map, htext, List.map_id, List.append_nil, h.text_eq]
  wellFormed item hitem := by
    obtain ⟨field, hfield, rfl⟩ := List.mem_map.mp hitem
    exact ⟨fun c hc => absurd hc List.not_mem_nil, List.mem_cons_self, Or.inl rfl,
      h.numeral field hfield⟩
  stopsAt _ _ c hc := by cases hc

/-- Items of the digits of octets, up to the end of the text, make a text of octets. -/
theorem addressText_of_reading (h : Reading conv sep text.toList items [])
    (hbare : ∀ item ∈ items, ¬ Padded conv item) :
    AddressText conv.base sep text (items.map Item.digits) where
  text_eq := by
    have htext : items.map Item.text = items.map Item.digits := by
      refine List.map_congr_left fun item hitem => ?_
      obtain ⟨hspace, hsign, hzeroX, -⟩ := not_padded_iff.mp (hbare item hitem)
      rw [Item.text, hspace, hsign, hzeroX, List.nil_append, List.nil_append, List.nil_append]
    rw [h.input_eq, htext, List.append_nil]
  numeral field hfield := by
    obtain ⟨item, hitem, rfl⟩ := List.mem_map.mp hfield
    exact (h.wellFormed item hitem).digits
  le field hfield := by
    obtain ⟨item, hitem, rfl⟩ := List.mem_map.mp hfield
    exact (not_padded_iff.mp (hbare item hitem)).2.2.2

/-- Every text of octets is accepted, as these octets. -/
theorem Denotes.accepts (h : Denotes conv.base sep count text octets) :
    Accepts conv sep count text octets := by
  obtain ⟨fields, hlength, haddress, rfl⟩ := h
  refine ⟨_, [], by rw [List.length_map, hlength], haddress.reading, ?_, fun octet hoctet => ?_⟩
  · rw [List.map_map]
    refine List.map_congr_left fun field hfield => Eq.symm ?_
    exact toNat_stored_of_octet rfl (haddress.le field hfield)
  · obtain ⟨field, hfield, rfl⟩ := List.mem_map.mp hoctet
    exact haddress.le field hfield

/-- What is accepted of a text that is not loose is what it denotes. -/
theorem Accepts.denotes (h : Accepts conv sep count text octets)
    (hloose : ¬ Loose conv sep count text) : Denotes conv.base sep count text octets := by
  obtain ⟨items, rest, hlength, hreading, rfl, hle⟩ := h
  have hreduces : ∀ item ∈ items, ReducesToOctet conv item := fun item hitem =>
    stored_le_iff.mp (hle _ (List.mem_map_of_mem hitem))
  have hnothing : ¬ (rest ≠ [] ∨ ∃ item ∈ items, Padded conv item) := fun h =>
    hloose ⟨items, rest, hlength, hreading, hreduces, h⟩
  simp only [not_or, not_not, not_exists, not_and] at hnothing
  obtain ⟨rfl, hbare⟩ := hnothing
  refine ⟨_, by rw [List.length_map, hlength], addressText_of_reading hreading hbare, ?_⟩
  rw [List.map_map]
  refine List.map_congr_left fun item hitem => ?_
  obtain ⟨-, hsign, -, hle⟩ := not_padded_iff.mp (hbare item hitem)
  exact toNat_stored_of_octet hsign hle

/-- A loose text is accepted, but denotes nothing. -/
theorem Loose.accepts_not_denotes (hsep : ∀ (item : Item) rest, item.StopsAt conv (sep :: rest))
    (h : Loose conv sep count text) :
    (∃ octets, Accepts conv sep count text octets) ∧
      ∀ octets, ¬ Denotes conv.base sep count text octets := by
  obtain ⟨items, rest, hlength, hreading, hreduces, hmore⟩ := h
  refine ⟨⟨_, items, rest, hlength, hreading, rfl, fun octet hoctet => ?_⟩, ?_⟩
  · obtain ⟨item, hitem, rfl⟩ := List.mem_map.mp hoctet
    exact stored_le_iff.mpr (hreduces item hitem)
  · rintro octets ⟨fields, hlength', haddress, -⟩
    obtain ⟨rfl, rfl⟩ := hreading.unique hsep haddress.reading (by
      rw [hlength, List.length_map, hlength'])
    rcases hmore with hrest | ⟨item, hitem, hpadded⟩
    · exact hrest rfl
    · obtain ⟨field, hfield, rfl⟩ := List.mem_map.mp hitem
      rcases hpadded with h | h | h | h
      · exact h rfl
      · exact h rfl
      · exact h rfl
      · exact absurd (haddress.le field hfield) (Nat.not_le.mpr h)

/-- A parser that fails unless `sscanf` reads `count` numbers, and then checks and takes the values
that it stores, accepts what `sscanf` stores as octets. -/
theorem eq_ok_iff_accepts {α : Type} {parse : String → Except String α} {value : List ℕ → α}
    (format : String) (hformat : directives format.toList = separated conv sep count)
    (hsep : ∀ (item : Item) rest, item.StopsAt conv (sep :: rest))
    (hcount : ∀ a, (sscanf text format).1 ≠ count → parse text ≠ .ok a)
    (hstored : ∀ a stored, stored.length = count → sscanf text format = ((count : ℤ), stored) →
      (parse text = .ok a ↔ (∀ octet ∈ stored.map UInt32.toNat, octet ≤ 255) ∧
        a = value (stored.map UInt32.toNat))) (a : α) :
    parse text = .ok a ↔ ∃ octets, Accepts conv sep count text octets ∧ a = value octets := by
  have hscan : ∀ items rest, items.length = count → Reading conv sep text.toList items rest →
      (parse text = .ok a ↔
        (∀ octet ∈ items.map fun item => (item.stored conv).toNat, octet ≤ 255) ∧
          a = value (items.map fun item => (item.stored conv).toNat)) := by
    intro items rest hlength hreading
    have hsscanf := hreading.sscanf_eq hsep (by rw [hlength]; exact hformat)
    rw [hlength] at hsscanf
    have hparse := hstored a _ (by rw [List.length_map, hlength]) hsscanf
    rw [List.map_map] at hparse
    exact hparse
  constructor
  · intro h
    have hread : (sscanf text format).1 = count := by
      by_contra hne
      exact hcount a hne h
    obtain ⟨items, rest, hlength, hreading⟩ := exists_reading_of_sscanf hsep hformat hread
    obtain ⟨hle, ha⟩ := (hscan items rest hlength hreading).mp h
    exact ⟨_, ⟨items, rest, hlength, hreading, rfl, hle⟩, ha⟩
  · rintro ⟨octets, ⟨items, rest, hlength, hreading, rfl, hle⟩, ha⟩
    exact (hscan items rest hlength hreading).mpr ⟨hle, ha⟩

/-- A parser that takes what `sscanf` stores as octets, whatever it makes of them, does what the
grammar says if and only if the text is not loose. -/
theorem readsExactly_iff (conv : Conversion) {α : Type} {parse : String → Except String α}
    {value : List ℕ → α} (hsep : ∀ (item : Item) rest, item.StopsAt conv (sep :: rest))
    (hparse : ∀ text a, parse text = .ok a ↔
      ∃ octets, Accepts conv sep count text octets ∧ a = value octets) :
    ReadsExactly parse conv.base sep count value text ↔ ¬ Loose conv sep count text := by
  constructor
  · intro hexact hloose
    obtain ⟨⟨octets, haccepts⟩, hnot⟩ := hloose.accepts_not_denotes hsep
    obtain ⟨octets', hdenotes, -⟩ :=
      (hexact (value octets)).mp ((hparse text _).mpr ⟨octets, haccepts, rfl⟩)
    exact hnot octets' hdenotes
  · intro hloose a
    rw [hparse]
    constructor
    · rintro ⟨octets, haccepts, rfl⟩
      exact ⟨octets, haccepts.denotes hloose, rfl⟩
    · rintro ⟨octets, hdenotes, rfl⟩
      exact ⟨octets, hdenotes.accepts, rfl⟩

end Cerebellum
