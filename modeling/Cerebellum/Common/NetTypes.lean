import Cerebellum.Common.AddressText
import Mathlib.Data.Nat.Bitwise

/-!
# IPv4 addresses in text

`IPv4Addr` of `net_types.cpp`: `FromString` reads four decimal numbers with `sscanf` and packs them
into a word, `ToString` prints the four octets of the word.

## Main definitions

* `Cerebellum.IPv4Addr`, with `fromString` and `toString`.
* `Cerebellum.IPv4Addr.ofOctets`: the address of four octets, as a number in base `256`.

## Main results

* `Cerebellum.IPv4Addr.fromString_eq_ok_iff`: `FromString` packs the octets that `sscanf` stores.
* `Cerebellum.IPv4Addr.text_round_trip`: `FromString` and `ToString` are inverse to each other, on
  the addresses and on the texts without leading zeros.
-/

open Numerals Scanf

namespace Cerebellum

/-- `IPv4Addr`. -/
structure IPv4Addr where
  value : UInt32 := 0
deriving DecidableEq

namespace IPv4Addr

/-- `kOctet0Shift`. -/
def kOctet0Shift : UInt32 := 24

/-- `kOctet1Shift`. -/
def kOctet1Shift : UInt32 := 16

/-- `kOctet2Shift`. -/
def kOctet2Shift : UInt32 := 8

/-- `kOctetMask`. -/
def kOctetMask : UInt32 := 0xFF

/-- `kOctetCount`. -/
def kOctetCount : ℤ := 4

/-- `IPv4Addr::FromString`; an error is the text of the exception. -/
def fromString (str : String) : Except String IPv4Addr :=
  let (parsed, stored) := sscanf str "%u.%u.%u.%u"
  let oct0 := stored.getD 0 0
  let oct1 := stored.getD 1 0
  let oct2 := stored.getD 2 0
  let oct3 := stored.getD 3 0
  if parsed ≠ kOctetCount then .error ("bad IPv4: " ++ str)
  else if oct0 > kOctetMask ∨ oct1 > kOctetMask ∨ oct2 > kOctetMask ∨ oct3 > kOctetMask then
    .error ("IPv4 octet out of range: " ++ str)
  else .ok ⟨oct0 <<< kOctet0Shift ||| oct1 <<< kOctet1Shift ||| oct2 <<< kOctet2Shift |||
    (oct3 &&& kOctetMask)⟩

/-- `IPv4Addr::ToString`. -/
def toString (addr : IPv4Addr) : String :=
  ToString.toString ((addr.value >>> kOctet0Shift) &&& kOctetMask) ++ "." ++
    ToString.toString ((addr.value >>> kOctet1Shift) &&& kOctetMask) ++ "." ++
    ToString.toString ((addr.value >>> kOctet2Shift) &&& kOctetMask) ++ "." ++
    ToString.toString (addr.value &&& kOctetMask)

example : (fromString "10.0.1.255").map toString = .ok "10.0.1.255" := by decide
example : fromString "10.0.0" = .error "bad IPv4: 10.0.0" := by decide
example : fromString "1.2.3.999" = .error "IPv4 octet out of range: 1.2.3.999" := by decide

/-- The address of four octets, the first one the most significant. -/
def ofOctets (octets : List ℕ) : IPv4Addr :=
  ⟨UInt32.ofNat (octets.foldl (fun value octet => value * 256 + octet) 0)⟩

/-! ### The word and its octets -/

theorem mul_pow_or_eq_add {n low k : ℕ} (h : low < 2 ^ k) :
    n * 2 ^ k ||| low = n * 2 ^ k + low := by
  rw [← Nat.shiftLeft_eq, Nat.shiftLeft_add_eq_or_of_lt h]

theorem toNat_shiftLeft_octet {octet shift : UInt32} (hoctet : octet.toNat ≤ 255)
    (hshift : shift.toNat ≤ 24) : (octet <<< shift).toNat = octet.toNat * 2 ^ shift.toNat := by
  have hpow : 2 ^ shift.toNat ≤ 2 ^ 24 := Nat.pow_le_pow_right (by decide) hshift
  have hlt : octet.toNat * 2 ^ shift.toNat < 2 ^ 32 :=
    Nat.lt_of_le_of_lt (Nat.mul_le_mul hoctet hpow) (by decide)
  rw [UInt32.toNat_shiftLeft, Nat.mod_eq_of_lt (show shift.toNat < 32 by omega),
    Nat.shiftLeft_eq, Nat.mod_eq_of_lt hlt]

theorem toNat_and_kOctetMask (value : UInt32) :
    (value &&& kOctetMask).toNat = value.toNat % 256 := by
  rw [UInt32.toNat_and]
  exact Nat.and_two_pow_sub_one_eq_mod _ 8

/-- The word that `FromString` packs is the number of its octets in base `256`. -/
theorem toNat_pack {oct0 oct1 oct2 oct3 : UInt32} (h0 : oct0.toNat ≤ 255) (h1 : oct1.toNat ≤ 255)
    (h2 : oct2.toNat ≤ 255) (h3 : oct3.toNat ≤ 255) :
    (oct0 <<< kOctet0Shift ||| oct1 <<< kOctet1Shift ||| oct2 <<< kOctet2Shift |||
      (oct3 &&& kOctetMask)).toNat =
        ((oct0.toNat * 256 + oct1.toNat) * 256 + oct2.toNat) * 256 + oct3.toNat := by
  have hmask : (oct3 &&& kOctetMask).toNat = oct3.toNat := by
    rw [toNat_and_kOctetMask, Nat.mod_eq_of_lt (by omega)]
  have hfirst : oct0.toNat * 2 ^ 24 ||| oct1.toNat * 2 ^ 16 =
      (oct0.toNat * 256 + oct1.toNat) * 2 ^ 16 := by
    rw [mul_pow_or_eq_add (by omega)]
    omega
  have hsecond : (oct0.toNat * 256 + oct1.toNat) * 2 ^ 16 ||| oct2.toNat * 2 ^ 8 =
      ((oct0.toNat * 256 + oct1.toNat) * 256 + oct2.toNat) * 2 ^ 8 := by
    rw [mul_pow_or_eq_add (by omega)]
    omega
  rw [UInt32.toNat_or, UInt32.toNat_or, UInt32.toNat_or, hmask,
    toNat_shiftLeft_octet h0 (by decide), toNat_shiftLeft_octet h1 (by decide),
    toNat_shiftLeft_octet h2 (by decide)]
  change oct0.toNat * 2 ^ 24 ||| oct1.toNat * 2 ^ 16 ||| oct2.toNat * 2 ^ 8 ||| oct3.toNat = _
  rw [hfirst, hsecond, mul_pow_or_eq_add (show oct3.toNat < 2 ^ 8 by omega)]
  rfl

/-- An octet of a word, as `ToString` takes it. -/
theorem toNat_octet (value : UInt32) {shift : UInt32} (hshift : shift.toNat < 32) :
    ((value >>> shift) &&& kOctetMask).toNat = value.toNat / 2 ^ shift.toNat % 256 := by
  rw [toNat_and_kOctetMask, UInt32.toNat_shiftRight, Nat.mod_eq_of_lt hshift,
    Nat.shiftRight_eq_div_pow]

/-- The octets of a word, the most significant one first. -/
def octets (addr : IPv4Addr) : List ℕ :=
  [addr.value.toNat / 2 ^ 24 % 256, addr.value.toNat / 2 ^ 16 % 256,
    addr.value.toNat / 2 ^ 8 % 256, addr.value.toNat % 256]

theorem ofOctets_octets (addr : IPv4Addr) : ofOctets addr.octets = addr := by
  have hvalue : addr.octets.foldl (fun value octet => value * 256 + octet) 0 =
      addr.value.toNat := by
    have hlt := addr.value.toNat_lt
    simp only [octets, List.foldl_cons, List.foldl_nil]
    omega
  rw [ofOctets, hvalue, UInt32.ofNat_toNat]

theorem octets_ofOctets {os : List ℕ} (hlength : os.length = 4) (hle : ∀ o ∈ os, o ≤ 255) :
    (ofOctets os).octets = os := by
  match os, hlength with
  | [o0, o1, o2, o3], _ =>
    simp only [List.forall_mem_cons] at hle
    obtain ⟨h0, h1, h2, h3, -⟩ := hle
    have hvalue : (ofOctets [o0, o1, o2, o3]).value.toNat =
        ((o0 * 256 + o1) * 256 + o2) * 256 + o3 := by
      simp only [ofOctets, List.foldl_cons, List.foldl_nil, UInt32.toNat_ofNat']
      omega
    simp only [octets, hvalue, List.cons.injEq, and_true]
    refine ⟨?_, ?_, ?_, ?_⟩
    · omega
    · omega
    · omega
    · omega

/-! ### Reading -/

theorem stopsAt_dot (item : Item) (rest : List Char) : item.StopsAt .u ('.' :: rest) :=
  stopsAt_separator rfl rfl item rest

theorem fromString_of_count_ne {str : String}
    (h : (sscanf str "%u.%u.%u.%u").1 ≠ kOctetCount) :
    fromString str = .error ("bad IPv4: " ++ str) :=
  if_pos h

/-- What `FromString` makes of the values that `sscanf` stores. -/
theorem fromString_of_sscanf {str : String} {oct0 oct1 oct2 oct3 : UInt32} {addr : IPv4Addr}
    (h : sscanf str "%u.%u.%u.%u" = (4, [oct0, oct1, oct2, oct3])) :
    fromString str = .ok addr ↔
      (∀ octet ∈ [oct0, oct1, oct2, oct3].map UInt32.toNat, octet ≤ 255) ∧
        addr = ofOctets ([oct0, oct1, oct2, oct3].map UInt32.toNat) := by
  have hgt : ∀ octet : UInt32, octet > kOctetMask ↔ ¬ octet.toNat ≤ 255 := fun octet => by
    rw [Nat.not_le]
    exact UInt32.lt_iff_toNat_lt
  rw [fromString, h]
  simp only [kOctetCount, ne_eq, not_true, if_false, List.getD_cons_zero, List.getD_cons_succ,
    List.map_cons, List.map_nil, List.forall_mem_cons, hgt]
  split_ifs with hrange
  · refine iff_of_false (fun h => by cases h) ?_
    rintro ⟨⟨h0, h1, h2, h3, -⟩, -⟩
    rcases hrange with h | h | h | h
    · exact h h0
    · exact h h1
    · exact h h2
    · exact h h3
  · simp only [not_or, not_not] at hrange
    obtain ⟨h0, h1, h2, h3⟩ := hrange
    have hvalue : ofOctets [oct0.toNat, oct1.toNat, oct2.toNat, oct3.toNat] =
        ⟨oct0 <<< kOctet0Shift ||| oct1 <<< kOctet1Shift ||| oct2 <<< kOctet2Shift |||
          (oct3 &&& kOctetMask)⟩ := by
      rw [ofOctets, ← UInt32.ofNat_toNat (x := _ ||| _), toNat_pack h0 h1 h2 h3]
      simp only [List.foldl_cons, List.foldl_nil, Nat.zero_mul, Nat.zero_add]
    rw [hvalue, Except.ok.injEq]
    exact ⟨fun h => ⟨⟨h0, h1, h2, h3, fun _ h => absurd h List.not_mem_nil⟩, h.symm⟩,
      fun h => h.2.symm⟩

/-- `FromString` accepts a text as the address of the four octets that `sscanf` stores. -/
theorem fromString_eq_ok_iff {str : String} {addr : IPv4Addr} :
    fromString str = .ok addr ↔
      ∃ octets, Accepts .u '.' 4 str octets ∧ addr = ofOctets octets := by
  refine eq_ok_iff_accepts "%u.%u.%u.%u" (by decide) stopsAt_dot (fun addr hne h => ?_)
    (fun addr stored hlength hscan => ?_) addr
  · rw [fromString_of_count_ne hne] at h
    cases h
  · match stored, hlength with
    | [_, _, _, _], _ => exact fromString_of_sscanf hscan

/-! ### The round trip -/

/-- Four decimal octets without leading zeros, with dots between them. -/
def CanonicalQuad (str : String) : Prop :=
  ∃ fields, fields.length = 4 ∧ AddressText 10 '.' str fields ∧ ∀ field ∈ fields, Canonical field

/-- `ToString` prints the octets in decimal, with dots between them. -/
theorem toList_toString (addr : IPv4Addr) :
    addr.toString.toList = ['.'].intercalate (addr.octets.map (Nat.toDigits 10)) := by
  have hprint : ∀ n : UInt32, (ToString.toString n).toList = Nat.toDigits 10 n.toNat := fun n =>
    Nat.toList_repr
  have hoctet0 : ((addr.value >>> kOctet0Shift) &&& kOctetMask).toNat =
      addr.value.toNat / 2 ^ 24 % 256 := toNat_octet addr.value (by decide)
  have hoctet1 : ((addr.value >>> kOctet1Shift) &&& kOctetMask).toNat =
      addr.value.toNat / 2 ^ 16 % 256 := toNat_octet addr.value (by decide)
  have hoctet2 : ((addr.value >>> kOctet2Shift) &&& kOctetMask).toNat =
      addr.value.toNat / 2 ^ 8 % 256 := toNat_octet addr.value (by decide)
  have hdot : ".".toList = ['.'] := by decide
  simp only [toString, String.toList_append, hprint, hoctet0, hoctet1, hoctet2, hdot,
    toNat_and_kOctetMask, octets, List.map_cons, List.map_nil, List.intercalate_cons_cons,
    List.intercalate_singleton, List.append_assoc]

theorem octets_le (addr : IPv4Addr) : ∀ octet ∈ addr.octets, octet ≤ 255 := by
  have hmod : ∀ n : ℕ, n % 256 ≤ 255 := fun n => Nat.le_of_lt_succ (Nat.mod_lt n (by decide))
  simp only [octets, List.forall_mem_cons]
  exact ⟨hmod _, hmod _, hmod _, hmod _, fun _ h => absurd h List.not_mem_nil⟩

theorem addressText_toString (addr : IPv4Addr) :
    AddressText 10 '.' addr.toString (addr.octets.map (Nat.toDigits 10)) where
  text_eq := toList_toString addr
  numeral field hfield := by
    obtain ⟨octet, -, rfl⟩ := List.mem_map.mp hfield
    exact isNumeral_toDigits octet
  le field hfield := by
    obtain ⟨octet, hoctet, rfl⟩ := List.mem_map.mp hfield
    rw [ofDigits_toDigits]
    exact octets_le addr octet hoctet

/-- What `ToString` prints denotes the octets of the address. -/
theorem denotes_toString (addr : IPv4Addr) : Denotes 10 '.' 4 addr.toString addr.octets := by
  refine ⟨_, rfl, addressText_toString addr, ?_⟩
  have hread : ofDigits 10 ∘ Nat.toDigits 10 = id := funext ofDigits_toDigits
  rw [List.map_map, hread, List.map_id]

/-- What `ToString` prints has no leading zeros. -/
theorem canonicalQuad_toString (addr : IPv4Addr) : CanonicalQuad addr.toString := by
  refine ⟨_, rfl, addressText_toString addr, fun field hfield => ?_⟩
  obtain ⟨octet, -, rfl⟩ := List.mem_map.mp hfield
  exact canonical_toDigits octet

theorem fromString_of_denotes {str : String} {octets : List ℕ} (h : Denotes 10 '.' 4 str octets) :
    fromString str = .ok (ofOctets octets) :=
  have haccepts : Accepts .u '.' 4 str octets := Denotes.accepts h
  fromString_eq_ok_iff.mpr ⟨octets, haccepts, rfl⟩

/-- `FromString` of what `ToString` prints for an address succeeds and gives that address, and
`ToString` of what `FromString` reads from four decimal octets without leading zeros prints them as
they were. -/
theorem text_round_trip :
    (∀ addr : IPv4Addr, fromString addr.toString = .ok addr) ∧
      ∀ str, CanonicalQuad str → ∃ addr, fromString str = .ok addr ∧ addr.toString = str := by
  refine ⟨fun addr => ?_, ?_⟩
  · rw [fromString_of_denotes (denotes_toString addr), ofOctets_octets]
  · rintro str ⟨fields, hlength, htext, hcanonical⟩
    refine ⟨_, fromString_of_denotes ⟨fields, hlength, htext, rfl⟩, String.toList_injective ?_⟩
    have hoctets : (ofOctets (fields.map (ofDigits 10))).octets = fields.map (ofDigits 10) :=
      octets_ofOctets (by rw [List.length_map, hlength]) (List.forall_mem_map.mpr htext.le)
    have hprint : (fields.map (ofDigits 10)).map (Nat.toDigits 10) = fields := by
      rw [List.map_map]
      exact (List.map_congr_left fun field hfield =>
        toDigits_ofDigits (htext.numeral field hfield) (hcanonical field hfield)).trans
          (List.map_id fields)
    rw [toList_toString, hoctets, hprint, htext.text_eq]

theorem text_round_trip_documented_address :
    fromString (IPv4Addr.toString ⟨0x0A0001FD⟩) = .ok ⟨0x0A0001FD⟩ ∧
      ∃ addr, fromString "10.0.1.253" = .ok addr ∧ addr.toString = "10.0.1.253" := by
  refine ⟨text_round_trip.1 ⟨0x0A0001FD⟩, text_round_trip.2 "10.0.1.253"
    ⟨[['1', '0'], ['0'], ['1'], ['2', '5', '3']], rfl, ⟨?_, ?_, ?_⟩, ?_⟩⟩
  · decide
  · decide
  · decide
  · decide

end IPv4Addr

end Cerebellum
