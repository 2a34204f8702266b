import PowerArm.A64.Machine

/-!
# Reads and writes of memory

What a write leaves where it wrote (`Memory.read_write`), and that a value read is as
short as what was read (`Memory.trunc_read`).
-/

namespace PowerArm.A64

@[simp] theorem Memory.length_bytes (m : Memory) (addr : Addr) (n : Nat) : (m.bytes addr n).length = n := by
  simp [Memory.bytes]

theorem OpSize.bytes_le (size : OpSize) : size.bytes ≤ 8 := by cases size <;> decide

theorem OpSize.trunc_eq (size : OpSize) (v : Value) : size.trunc v = Lib.ofBytes 64 (Lib.toBytes size.bytes v) := by
  apply BitVec.eq_of_getLsbD_eq
  intro i hi
  rw [Lib.getLsbD_ofBytes_toBytes _ _ hi]
  simp [OpSize.trunc, OpSize.bits, hi]

theorem Memory.bytes_put (m : Memory) (addr : Addr)
    (h : bs.length ≤ 8) : (m.put addr bs).bytes addr bs.length = bs := by
  apply List.ext_getElem (by simp)
  intro i hi hi'
  have hsub : (addr + BitVec.ofNat 64 i - addr).toNat = i := by
    rw [BitVec.add_comm, BitVec.add_sub_cancel, BitVec.toNat_ofNat]
    omega
  simp only [Memory.bytes, Memory.put, List.getElem_map, List.getElem_range, hsub]
  rw [List.getD_eq_getElem?_getD, List.getElem?_eq_getElem hi', Option.getD_some]

theorem Memory.read_write (m : Memory) (size : OpSize) (addr : Addr) (v : Value) :
    (m.write size addr v).read size addr = size.trunc v := by
  have hlen := Lib.length_toBytes size.bytes v
  have hb := m.bytes_put addr (hlen ▸ size.bytes_le)
  rw [hlen] at hb
  rw [Memory.read, Memory.write, hb, OpSize.trunc_eq]

theorem Memory.trunc_read (m : Memory) (size : OpSize) (addr : Addr) :
    size.trunc (m.read size addr) = m.read size addr := by
  have hlen := m.length_bytes addr size.bytes
  have hb := Lib.toBytes_ofBytes (w := 64) (m.bytes addr size.bytes)
    (by rw [hlen]; exact Nat.mul_le_mul_left 8 size.bytes_le)
  rw [hlen] at hb
  rw [OpSize.trunc_eq, Memory.read, hb]

end PowerArm.A64
