import Cerebellum.Common.NetTypes
import Cerebellum.Net.FlowKey

/-!
# Addresses in the configuration

`LoadConfig` (`config_loader.cpp`) reads the addresses of the configuration with
`IPv4Addr::FromString` and `ParseMac`. Both reject a text from which `sscanf` does not read all
numbers, and numbers above `0xFF`. What `sscanf` skips, reduces or leaves over is not looked at, so
that a text such as `10.0.1.253/24` is accepted.

## Main definitions

* `Cerebellum.parseMac`: `ParseMac`.
* `Cerebellum.MacAddr.ofOctets`: the address of six octets.

## Main results

* `Cerebellum.parseMac_eq_ok_iff`: `ParseMac` takes the octets that `sscanf` stores.
* `Cerebellum.address_parsers_exact_iff`: the two parsers accept exactly the texts of octets, up to
  the loose ones.
-/

open Numerals Scanf

namespace Cerebellum

/-- `kMacOctets`. -/
def kMacOctets : ℤ := 6

/-- `kMaxOctetValue`. -/
def kMaxOctetValue : UInt32 := 0xFF

/-- The loop of `ParseMac` over the octets. -/
def fillMac (text : String) (octets : Fin 6 → UInt32) :
    List (Fin 6) → MacAddr → Except String MacAddr
  | [], mac => .ok mac
  | i :: rest, mac =>
    if octets i > kMaxOctetValue then .error ("MAC octet out of range: " ++ text)
    else fillMac text octets rest ⟨Function.update mac.bytes i (octets i).toUInt8⟩

/-- `ParseMac`; an error is the text of the exception. -/
def parseMac (text : String) : Except String MacAddr :=
  let (parsed, stored) := sscanf text "%x:%x:%x:%x:%x:%x"
  if parsed ≠ kMacOctets then .error ("bad MAC: " ++ text)
  else fillMac text (fun i => stored.getD i 0) (List.finRange 6) {}

/-- The address of six octets. -/
def MacAddr.ofOctets (octets : List ℕ) : MacAddr := ⟨fun i => UInt8.ofNat (octets.getD i 0)⟩

example : (parseMac "52:54:00:11:22:3f").map (fun mac => List.ofFn mac.bytes) =
    .ok [0x52, 0x54, 0, 0x11, 0x22, 0x3F] := by
  decide
example : (parseMac "52:54:00:11:22:100").map (fun mac => List.ofFn mac.bytes) =
    .error "MAC octet out of range: 52:54:00:11:22:100" := by
  decide

variable {text : String} {octets : Fin 6 → UInt32} {indices : List (Fin 6)} {mac mac' : MacAddr}

theorem stopsAt_colon (item : Item) (rest : List Char) : item.StopsAt .x (':' :: rest) :=
  stopsAt_separator rfl rfl item rest

/-- The loop ends when no octet is out of range, and sets the bytes at its indices. -/
theorem fillMac_eq_ok_iff :
    fillMac text octets indices mac = .ok mac' ↔
      (∀ i ∈ indices, (octets i).toNat ≤ 255) ∧
        mac' = ⟨fun i => if i ∈ indices then (octets i).toUInt8 else mac.bytes i⟩ := by
  induction indices generalizing mac with
  | nil =>
    simp only [fillMac, Except.ok.injEq, List.not_mem_nil, if_false]
    exact ⟨fun h => ⟨fun _ h => h.elim, h.symm⟩, fun h => h.2.symm⟩
  | cons i indices ih =>
    have hgt : octets i > kMaxOctetValue ↔ ¬ (octets i).toNat ≤ 255 := by
      rw [Nat.not_le]
      exact UInt32.lt_iff_toNat_lt
    rw [fillMac, List.forall_mem_cons]
    split_ifs with hrange
    · exact iff_of_false (fun h => by cases h) fun h => hgt.mp hrange h.1.1
    · have hle : (octets i).toNat ≤ 255 := not_not.mp (mt hgt.mpr hrange)
      have hbytes : (fun j => if j ∈ indices then (octets j).toUInt8
          else Function.update mac.bytes i (octets i).toUInt8 j) =
            fun j => if j ∈ i :: indices then (octets j).toUInt8 else mac.bytes j := by
        funext j
        rcases eq_or_ne j i with rfl | hne
        · rw [Function.update_self, ite_self, if_pos List.mem_cons_self]
        · simp only [List.mem_cons, hne, false_or, Function.update_of_ne hne]
      rw [ih, hbytes, and_assoc, and_iff_right hle]

theorem parseMac_of_count_ne (h : (sscanf text "%x:%x:%x:%x:%x:%x").1 ≠ kMacOctets) :
    parseMac text = .error ("bad MAC: " ++ text) :=
  if_pos h

/-- What `ParseMac` makes of the values that `sscanf` stores. -/
theorem parseMac_of_sscanf {stored : List UInt32} (hlength : stored.length = 6)
    (h : sscanf text "%x:%x:%x:%x:%x:%x" = (6, stored)) :
    parseMac text = .ok mac ↔
      (∀ octet ∈ stored.map UInt32.toNat, octet ≤ 255) ∧
        mac = .ofOctets (stored.map UInt32.toNat) := by
  have hfill : parseMac text = fillMac text (fun i => stored.getD i 0) (List.finRange 6) {} := by
    rw [parseMac, h]
    rfl
  have hall : (∀ i ∈ List.finRange 6, (stored.getD i 0).toNat ≤ 255) ↔
      ∀ octet ∈ stored.map UInt32.toNat, octet ≤ 255 := by
    rw [List.forall_mem_map]
    constructor
    · intro hle octet hoctet
      obtain ⟨i, hi, rfl⟩ := List.mem_iff_getElem.mp hoctet
      have hle := hle ⟨i, by rw [← hlength]; exact hi⟩ (List.mem_finRange _)
      rwa [List.getD_eq_getElem _ _ hi] at hle
    · intro hle i _
      rw [List.getD_eq_getElem _ _ (by rw [hlength]; exact i.isLt)]
      exact hle _ (List.getElem_mem _)
  have hbytes : MacAddr.ofOctets (stored.map UInt32.toNat) =
      ⟨fun i => if i ∈ List.finRange 6 then (stored.getD i 0).toUInt8 else 0⟩ := by
    refine congrArg MacAddr.mk (funext fun i => ?_)
    have hi : i.val < stored.length := by
      rw [hlength]
      exact i.isLt
    rw [if_pos (List.mem_finRange i), List.getD_eq_getElem _ _ hi,
      List.getD_eq_getElem _ _ (by rw [List.length_map]; exact hi), List.getElem_map]
    rfl
  rw [hfill, fillMac_eq_ok_iff, hall, hbytes]

/-- `ParseMac` accepts a text as the address of the six octets that `sscanf` stores. -/
theorem parseMac_eq_ok_iff :
    parseMac text = .ok mac ↔ ∃ octets, Accepts .x ':' 6 text octets ∧ mac = .ofOctets octets := by
  refine eq_ok_iff_accepts "%x:%x:%x:%x:%x:%x" (by decide) stopsAt_colon (fun mac hne h => ?_)
    (fun mac stored hlength hscan => parseMac_of_sscanf hlength hscan) mac
  rw [parseMac_of_count_ne hne] at h
  cases h

/-! ### The texts that are accepted -/

/-- On a text, `FromString` and `ParseMac` do what the grammar says, four decimal octets with dots
or six hexadecimal octets with colons and nothing else, if and only if the text is not loose: if it
does not begin with as many integers that are reduced to octets but have white space, a sign, `0x`
or more than an octet in them, or other text after them. -/
theorem address_parsers_exact_iff (text : String) :
    (ReadsExactly IPv4Addr.fromString 10 '.' 4 IPv4Addr.ofOctets text ↔ ¬ Loose .u '.' 4 text) ∧
      (ReadsExactly parseMac 16 ':' 6 MacAddr.ofOctets text ↔ ¬ Loose .x ':' 6 text) :=
  ⟨readsExactly_iff .u IPv4Addr.stopsAt_dot fun _ _ => IPv4Addr.fromString_eq_ok_iff,
    readsExactly_iff .x stopsAt_colon fun _ _ => parseMac_eq_ok_iff⟩

example : IPv4Addr.fromString " +10.0.1.-4294967043" = .ok ⟨0x0A0001FD⟩ := by decide
example : IPv4Addr.fromString "4294967306.0.1.253" = .ok ⟨0x0A0001FD⟩ := by decide

theorem loose_network : Loose .u '.' 4 "10.0.1.253/24" :=
  ⟨[{ digits := ['1', '0'] }, { digits := ['0'] }, { digits := ['1'] },
      { digits := ['2', '5', '3'] }], ['/', '2', '4'],
    rfl, by decide, by decide, Or.inl (List.cons_ne_nil _ _)⟩

theorem loose_eight_octets : Loose .x ':' 6 "52:54:00:11:22:33:44:55" :=
  ⟨[{ digits := ['5', '2'] }, { digits := ['5', '4'] }, { digits := ['0', '0'] },
      { digits := ['1', '1'] }, { digits := ['2', '2'] }, { digits := ['3', '3'] }],
    [':', '4', '4', ':', '5', '5'], rfl, by decide, by decide, Or.inl (List.cons_ne_nil _ _)⟩

/-- `FromString` accepts a network with its length as an address, and `ParseMac` eight octets as an
address of six. -/
theorem text_after_address_is_accepted :
    ¬ ReadsExactly IPv4Addr.fromString 10 '.' 4 IPv4Addr.ofOctets "10.0.1.253/24" ∧
      ¬ ReadsExactly parseMac 16 ':' 6 MacAddr.ofOctets "52:54:00:11:22:33:44:55" :=
  ⟨fun h => (readsExactly_iff .u IPv4Addr.stopsAt_dot
      fun _ _ => IPv4Addr.fromString_eq_ok_iff).mp h loose_network,
    fun h => (readsExactly_iff .x stopsAt_colon
      fun _ _ => parseMac_eq_ok_iff).mp h loose_eight_octets⟩

end Cerebellum
