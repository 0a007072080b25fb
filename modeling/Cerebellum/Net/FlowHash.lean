import Cerebellum.Lib.ShiftRegister
import Cerebellum.Net.FlowKey
import Mathlib.Data.Fintype.EquivFin

/-!
# What the hash of a flow key tells apart

With SSE 4.2 `Hash` is the CRC-32C of the sixteen bytes of the key. The polynomial has its highest
bit set, so that keys which differ in four neighbouring bytes only have different hashes: the
source address occupies four bytes, the destination address four, and the two ports four. As a
function of one of these the hash takes each of its `2 ^ 32` values once.

## Main results

* `Cerebellum.FlowKey.hash_srcIp_bijective`: the hash as a function of the source address.
* `Cerebellum.FlowKey.ports_eq_of_hash_eq`: keys that differ in the ports only.
-/

namespace Cerebellum

open ShiftRegister

/-- The reflected Castagnoli polynomial. -/
def castagnoli : BitVec 32 := 0x82F63B78#32

theorem msb_castagnoli : castagnoli.msb = true := by decide

theorem toBitVec_crc32Bit (crc : UInt32) :
    (crc32Bit crc).toBitVec = shift castagnoli crc.toBitVec := by
  have hlow : (crc &&& 1 = 1) ↔ crc.toBitVec.getLsbD 0 = true := by
    rw [← UInt32.toNat_inj, UInt32.toNat_and, BitVec.getLsbD, UInt32.toNat_toBitVec,
      Nat.testBit_zero, decide_eq_true_eq]
    exact (Nat.and_one_is_mod crc.toNat).congr_left
  unfold crc32Bit shift
  simp only [hlow]
  split_ifs <;> rfl

theorem toBitVec_iterate_crc32Bit (n : ℕ) (crc : UInt32) :
    (crc32Bit^[n] crc).toBitVec = (shift castagnoli)^[n] crc.toBitVec := by
  induction n generalizing crc with
  | zero => rfl
  | succ n ih => rw [Function.iterate_succ_apply, ih, toBitVec_crc32Bit]; rfl

/-- The `crc32` instructions over some bytes feed them to the register. -/
theorem toBitVec_foldl_crc32Byte (bytes : List UInt8) (crc : UInt32) :
    (bytes.foldl crc32Byte crc).toBitVec =
      feed castagnoli crc.toBitVec (bytes.map UInt8.toBitVec) := by
  induction bytes generalizing crc with
  | nil => rfl
  | cons b bytes ih =>
    rw [List.foldl_cons, ih, crc32Byte, toBitVec_iterate_crc32Bit]
    rfl

namespace FlowKey

theorem length_leBytes (k v : ℕ) : (leBytes k v).length = k := by
  induction k generalizing v with
  | zero => rfl
  | succ k ih => rw [leBytes, List.length_cons, ih]

/-- A number is determined by its low bytes if it has no others. -/
theorem leBytes_injective {k v v' : ℕ} (hv : v < 256 ^ k) (hv' : v' < 256 ^ k)
    (h : leBytes k v = leBytes k v') : v = v' := by
  induction k generalizing v v' with
  | zero => omega
  | succ k ih =>
    rw [Nat.pow_succ] at hv hv'
    obtain ⟨hlow, hhigh⟩ := List.cons.inj h
    have hrest : v / 256 = v' / 256 := ih (by omega) (by omega) hhigh
    have hmod : v % 256 = v' % 256 := by
      simpa only [UInt8.toNat_ofNat'] using congrArg UInt8.toNat hlow
    omega

/-- The bytes of a key determine its fields, so that comparing the memory of two keys is comparing
the keys. -/
theorem toBytes_injective : Function.Injective toBytes := by
  intro key key' h
  simp only [toBytes, List.append_assoc] at h
  obtain ⟨hsrc, h⟩ := List.append_inj h (by rw [length_leBytes, length_leBytes])
  obtain ⟨hdst, h⟩ := List.append_inj h (by rw [length_leBytes, length_leBytes])
  obtain ⟨hsp, h⟩ := List.append_inj h (by rw [length_leBytes, length_leBytes])
  obtain ⟨hdp, h⟩ := List.append_inj h (by rw [length_leBytes, length_leBytes])
  have haddr (a : UInt32) : a.toNat < 256 ^ 4 := a.toNat_lt
  have hport (p : UInt16) : p.toNat < 256 ^ 2 := p.toNat_lt
  ext1
  · exact UInt32.toNat_inj.mp (leBytes_injective (haddr _) (haddr _) hsrc)
  · exact UInt32.toNat_inj.mp (leBytes_injective (haddr _) (haddr _) hdst)
  · exact UInt16.toNat_inj.mp (leBytes_injective (hport _) (hport _) hsp)
  · exact UInt16.toNat_inj.mp (leBytes_injective (hport _) (hport _) hdp)
  · exact (List.cons.inj h).1

/-- Keys whose bytes differ in four neighbouring places only have different hashes. -/
theorem window_eq_of_hash_eq {key key' : FlowKey} {before after window window' : List UInt8}
    (hkey : key.toBytes = before ++ window ++ after)
    (hkey' : key'.toBytes = before ++ window' ++ after) (hlength : window.length ≤ 4)
    (hlength' : window.length = window'.length) (h : key.hash .sse42 = key'.hash .sse42) :
    window = window' := by
  have hbits := congrArg UInt32.toBitVec h
  simp only [hash, hkey, hkey', toBitVec_foldl_crc32Byte, List.map_append] at hbits
  refine List.map_injective_iff.mpr (fun a b => UInt8.toBitVec_inj.mp)
    (feed_window_injective msb_castagnoli _ _ _ ?_ ?_ hbits)
  · rw [List.length_map, List.length_map, hlength']
  · rw [List.length_map]
    omega

theorem toBytes_srcIp (key : FlowKey) (a : UInt32) :
    ({ key with srcIp := a } : FlowKey).toBytes = [] ++ leBytes 4 a.toNat ++
      (leBytes 4 key.dstIp.toNat ++ leBytes 2 key.srcPort.toNat ++ leBytes 2 key.dstPort.toNat ++
        [key.proto] ++ [0, 0, 0]) := by
  simp only [toBytes, List.nil_append, List.append_assoc]

theorem toBytes_ports (key : FlowKey) :
    key.toBytes = (leBytes 4 key.srcIp.toNat ++ leBytes 4 key.dstIp.toNat) ++
      (leBytes 2 key.srcPort.toNat ++ leBytes 2 key.dstPort.toNat) ++
        ([key.proto] ++ [0, 0, 0]) := by
  simp only [toBytes, List.append_assoc]

theorem hash_srcIp_injective (key : FlowKey) :
    Function.Injective fun a : UInt32 => ({ key with srcIp := a } : FlowKey).hash .sse42 := by
  intro a a' h
  have hwindow := window_eq_of_hash_eq (key.toBytes_srcIp a) (key.toBytes_srcIp a')
    (length_leBytes _ _).le (by rw [length_leBytes, length_leBytes]) h
  exact UInt32.toNat_inj.mp (leBytes_injective a.toNat_lt a'.toNat_lt hwindow)

/-- As a function of the source address the hash takes every value once. -/
theorem hash_srcIp_bijective (key : FlowKey) :
    Function.Bijective fun a : UInt32 => ({ key with srcIp := a } : FlowKey).hash .sse42 :=
  Finite.injective_iff_bijective.mp (hash_srcIp_injective key)

theorem hash_surjective : Function.Surjective (FlowKey.hash .sse42) := fun v =>
  let ⟨_, ha⟩ := (hash_srcIp_bijective default).surjective v
  ⟨_, ha⟩

/-- Keys with the same addresses and protocol and the same hash have the same ports. -/
theorem ports_eq_of_hash_eq {key key' : FlowKey} (hsrc : key.srcIp = key'.srcIp)
    (hdst : key.dstIp = key'.dstIp) (hproto : key.proto = key'.proto)
    (h : key.hash .sse42 = key'.hash .sse42) :
    key.srcPort = key'.srcPort ∧ key.dstPort = key'.dstPort := by
  have hbytes := key'.toBytes_ports
  rw [← hsrc, ← hdst, ← hproto] at hbytes
  have hwindow := window_eq_of_hash_eq key.toBytes_ports hbytes
    (by simp only [List.length_append, length_leBytes]; exact le_rfl)
    (by simp only [List.length_append, length_leBytes]) h
  obtain ⟨hsp, hdp⟩ := List.append_inj hwindow (by rw [length_leBytes, length_leBytes])
  have hport (p : UInt16) : p.toNat < 256 ^ 2 := p.toNat_lt
  exact ⟨UInt16.toNat_inj.mp (leBytes_injective (hport _) (hport _) hsp),
    UInt16.toNat_inj.mp (leBytes_injective (hport _) (hport _) hdp)⟩

end FlowKey

end Cerebellum
