import Xv6.Lib.Bytes

namespace Xv6.Lib.Record

open Lib.Bytes

def bytesOfNat (w v : Nat) : List UInt8 := (List.range w).map (byteOfNat v)

def natOfList (bs : List UInt8) : Nat := natOfBytes (fun j => bs.getD j 0) bs.length

def encode : List (Nat × Nat) → List UInt8
  | [] => []
  | (w, v) :: fs => bytesOfNat w v ++ encode fs

def decode : List Nat → List UInt8 → List Nat
  | [], _ => []
  | w :: ws, bs => natOfList (bs.take w) :: decode ws (bs.drop w)

@[simp] theorem length_bytesOfNat (w v : Nat) : (bytesOfNat w v).length = w := by
  simp [bytesOfNat]

theorem length_encode (fs : List (Nat × Nat)) : (encode fs).length = (fs.map Prod.fst).sum := by
  induction fs with
  | nil => rfl
  | cons f fs ih => simp [encode, ih]

theorem natOfList_bytesOfNat (w v : Nat) : natOfList (bytesOfNat w v) = v % 256 ^ w := by
  rw [natOfList, length_bytesOfNat, ← natOfBytes_byteOfNat]
  apply natOfBytes_congr
  intro j hj
  simp [bytesOfNat, List.getD, hj]

theorem decode_encode (fs : List (Nat × Nat)) :
    decode (fs.map Prod.fst) (encode fs) = fs.map fun f => f.2 % 256 ^ f.1 := by
  induction fs with
  | nil => rfl
  | cons f fs ih =>
    obtain ⟨w, v⟩ := f
    have ht : (bytesOfNat w v ++ encode fs).take w = bytesOfNat w v :=
      List.take_left' (length_bytesOfNat w v)
    have hd : (bytesOfNat w v ++ encode fs).drop w = encode fs :=
      List.drop_left' (length_bytesOfNat w v)
    simp only [List.map_cons, encode, decode, ht, hd, natOfList_bytesOfNat, ih]

end Xv6.Lib.Record
