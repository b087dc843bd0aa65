import Hessian2.BinaryGrammar

/-!
# The output of the binary encoder

* `Framed` : the chunks that binary data is to be sent in.
* `writeBinaryChunks_frames` : what the loop of `encode<std::vector<uint8_t>>` writes, with a
  position that wraps around.
* `encodeBytes_framed_iff` : **the output is well framed for exactly the data that the position can
  address.**
-/

namespace Hessian2

open Enc

/-- The non-final chunks of `chunkSize` bytes, then the final one. -/
def binaryChunks (chunks : List Bytes) (last : Bytes) : Bytes :=
  chunks.flatMap (fun chunk => 0x41 :: 0x04 :: 0x00 :: chunk) ++
    0x42 :: (bigEndianBytes .uint16 last.length ++ last)

/-- The output for binary data: one compact chunk for fewer than 1024 bytes, and otherwise chunks of
1024 bytes up to the last one, that join to the data. -/
structure Framed (data output : Bytes) : Prop where
  compact : data.length < 1024 → ∃ header, BinaryHeader header data.length ∧
    header.length = (if data.length < 16 then 1 else 2) ∧ output = header ++ data
  chunked : 1024 ≤ data.length → ∃ chunks last,
    chunks.length = (data.length + 1023) / 1024 - 1 ∧ (∀ chunk ∈ chunks, chunk.length = 1024) ∧
      1 ≤ last.length ∧ last.length ≤ 1024 ∧ chunks.flatten ++ last = data ∧
        output = binaryChunks chunks last

/-- Each non-final chunk takes three bytes more than it carries. -/
theorem length_flatMap_chunks {chunks : List Bytes} (h : ∀ chunk ∈ chunks, chunk.length = 1024) :
    (chunks.flatMap fun chunk => 0x41 :: 0x04 :: 0x00 :: chunk).length = 1027 * chunks.length := by
  induction chunks with
  | nil => rfl
  | cons chunk chunks ih =>
    rw [List.forall_mem_cons] at h
    rw [List.flatMap_cons, List.length_append, ih h.2, List.length_cons]
    simp only [List.length_cons, h.1]
    omega

/-- What the loop writes for the last `size` bytes: the right chunks as long as the position does
not wrap around, and in any case the final chunk from a wrapped position on. -/
theorem writeBinaryChunks_frames (data : Bytes) {size pos : ℕ} (hsize : 0 < size)
    (h : pos + size = data.length) : ∃ (chunks : List Bytes) (final : ℕ),
      size = 1024 * chunks.length + final ∧ 1 ≤ final ∧ final ≤ 1024 ∧
      (∀ chunk ∈ chunks, chunk.length = 1024) ∧
      (∀ e, writeBinaryChunks data size (pos % 2 ^ 32) e = .ok ((), e.write
        (chunks.flatMap (fun chunk => 0x41 :: 0x04 :: 0x00 :: chunk) ++
          0x42 :: (bigEndianBytes .uint16 final ++
            data.drop ((pos + 1024 * chunks.length) % 2 ^ 32))))) ∧
      (data.length ≤ 2 ^ 32 →
        chunks.flatten ++ data.drop (pos + 1024 * chunks.length) = data.drop pos) := by
  induction size using Nat.strong_induction_on generalizing pos with
  | _ size ih =>
  have hchunk : chunkSize = 1024 := rfl
  by_cases hbig : chunkSize < size
  · obtain ⟨chunks, final, hlen, hpos, hle, hall, hwrite, hjoin⟩ := ih (size - chunkSize) (by omega)
      (by omega) (show pos + chunkSize + (size - chunkSize) = data.length by omega)
    -- the position is taken modulo 2^32, its distance to the end is not
    have hnext : pos + chunkSize + 1024 * chunks.length = pos + 1024 * (chunks.length + 1) := by omega
    refine ⟨(data.drop (pos % 2 ^ 32)).take chunkSize :: chunks, final, ?_, hpos, hle, ?_,
      fun e => ?_, fun hsmall => ?_⟩
    · rw [List.length_cons]
      omega
    · rw [List.forall_mem_cons]
      refine ⟨?_, hall⟩
      rw [List.length_take, List.length_drop]
      omega
    · rw [writeBinaryChunks, if_pos hbig, writeByte_bind, writeBE_bind, rawWrite_bind,
        Nat.mod_add_mod, hwrite, hnext]
      simp only [Encoder.write_write, List.append_assoc, List.flatMap_cons, List.length_cons]
      rfl
    · have hmod : pos % 2 ^ 32 = pos := Nat.mod_eq_of_lt (by omega)
      rw [List.length_cons, ← hnext, List.flatten_cons, List.append_assoc, hjoin hsmall, hmod,
        ← List.drop_drop, List.take_append_drop]
  · refine ⟨[], size, by simp, hsize, by omega, by simp, fun e => ?_, fun _ => rfl⟩
    rw [writeBinaryChunks, if_neg hbig, if_pos hsize, writeByte_bind, writeBE_bind]
    simp only [rawWrite_apply, Encoder.write_write]
    rfl

/-- The loop over all of the data. -/
theorem encodeBytes_long {data : Bytes} (hlong : 1024 ≤ data.length) :
    ∃ (chunks : List Bytes) (final : ℕ),
      data.length = 1024 * chunks.length + final ∧ 1 ≤ final ∧ final ≤ 1024 ∧
      (∀ chunk ∈ chunks, chunk.length = 1024) ∧
      (∀ e, encodeBytes data e = .ok (true, e.write
        (chunks.flatMap (fun chunk => 0x41 :: 0x04 :: 0x00 :: chunk) ++
          0x42 :: (bigEndianBytes .uint16 final ++
            data.drop (1024 * chunks.length % 2 ^ 32))))) ∧
      (data.length ≤ 2 ^ 32 → chunks.flatten ++ data.drop (1024 * chunks.length) = data) := by
  obtain ⟨chunks, final, hlen, hpos, hle, hall, hwrite, hjoin⟩ :=
    writeBinaryChunks_frames data (by omega) (Nat.zero_add _)
  rw [Nat.zero_add] at hjoin hwrite
  refine ⟨chunks, final, hlen, hpos, hle, hall, fun e => ?_, hjoin⟩
  have hloop := hwrite e
  rw [Nat.zero_mod] at hloop
  simp only [encodeBytes, if_neg (show ¬data.length < 16 by omega),
    if_neg (show ¬data.length < 1024 by omega)]
  rw [Enc.bind_apply_ok hloop, Enc.pure_apply]

/-- Less than 1024 bytes are sent in a compact chunk. -/
theorem encodeBytes_compact {data : Bytes} (h : data.length < 1024) :
    ∃ header, BinaryHeader header data.length ∧
      header.length = (if data.length < 16 then 1 else 2) ∧
      ∀ e, encodeBytes data e = .ok (true, e.write (header ++ data)) := by
  by_cases h₁ : data.length < 16
  · have hb := toNat_byteOf (0x20 + data.length)
    have hn : (byteOf (0x20 + data.length)).toNat - 0x20 = data.length := by omega
    have hh := BinaryHeader.compact (b := byteOf (0x20 + data.length)) (by omega)
    rw [hn] at hh
    refine ⟨_, hh, by rw [if_pos h₁]; rfl, fun e => ?_⟩
    simp only [encodeBytes, if_pos h₁, writeByte_bind, rawWrite_bind, Enc.pure_apply,
      Encoder.write_write]
  · have hb := toNat_byteOf (0x34 + data.length / 256)
    have hc := toNat_byteOf data.length
    have hn : 256 * ((byteOf (0x34 + data.length / 256)).toNat - 0x34) +
        (byteOf data.length).toNat = data.length := by omega
    have hh := BinaryHeader.short (b := byteOf (0x34 + data.length / 256)) (c := byteOf data.length)
      (by omega)
    rw [hn] at hh
    refine ⟨_, hh, by rw [if_neg h₁]; rfl, fun e => ?_⟩
    simp only [encodeBytes, if_neg h₁, if_pos h, writeByte_bind, rawWrite_bind, Enc.pure_apply,
      Encoder.write_write, List.append_assoc]
    rfl

/-- Beyond 4 GiB the final chunk starts at a wrapped position and is too long. -/
theorem not_framed_of_lt {data output : Bytes} (h : 2 ^ 32 < data.length) (e : Encoder)
    (hout : encodeBytes data e = .ok (true, e.write output)) : ¬ Framed data output := by
  intro hf
  obtain ⟨chunks, final, hlen, hpos, hle, hall, hwrite, -⟩ := encodeBytes_long (show 1024 ≤ data.length by omega)
  obtain ⟨chunks', last, hlen', hall', -, hlast, -, rfl⟩ := hf.chunked (by omega)
  have heq := hout.symm.trans (hwrite e)
  simp only [Except.ok.injEq, Prod.mk.injEq, true_and, Encoder.write, Encoder.mk.injEq,
    and_true, List.append_cancel_left_eq] at heq
  have hsize := congrArg List.length heq
  rw [binaryChunks, List.length_append, List.length_append, length_flatMap_chunks hall,
    length_flatMap_chunks hall'] at hsize
  simp only [List.length_cons, List.length_append, length_bigEndianBytes, List.length_drop] at hsize
  -- the last chunk is at most 1024 bytes long, so its position lies in the last 1024 bytes
  have hmod := Nat.mod_le (1024 * chunks.length) (2 ^ 32)
  have hlt := Nat.mod_lt (1024 * chunks.length) (show 0 < 2 ^ 32 by decide)
  omega

/-- **The output is well framed exactly for the data that a `uint32_t` can address**, whatever has
been written before. -/
theorem encodeBytes_framed_iff (data : Bytes) (e : Encoder) :
    (∃ output, encodeBytes data e = .ok (true, e.write output) ∧ Framed data output) ↔
      data.length ≤ 2 ^ 32 := by
  constructor
  · rintro ⟨output, hout, hf⟩
    by_contra h
    exact not_framed_of_lt (by omega) e hout hf
  · intro h
    by_cases hsmall : data.length < 1024
    · obtain ⟨header, hh, hlen, hwrite⟩ := encodeBytes_compact hsmall
      exact ⟨_, hwrite e, fun _ => ⟨header, hh, hlen, rfl⟩, fun hlong => by omega⟩
    · obtain ⟨chunks, final, hlen, hpos, hle, hall, hwrite, hjoin⟩ :=
        encodeBytes_long (show 1024 ≤ data.length by omega)
      have hmod : 1024 * chunks.length % 2 ^ 32 = 1024 * chunks.length :=
        Nat.mod_eq_of_lt (by omega)
      have hlast : (data.drop (1024 * chunks.length)).length = final := by
        rw [List.length_drop]
        omega
      refine ⟨binaryChunks chunks (data.drop (1024 * chunks.length)), ?_,
        fun hshort => absurd hshort hsmall, fun _ => ⟨chunks, _, by omega, hall, by omega, by omega,
          hjoin h, rfl⟩⟩
      rw [hwrite, hmod, binaryChunks, hlast]

/-- The data of 4 GiB and one byte. -/
theorem encodeBytes_not_framed : ¬ ∃ output,
    encodeBytes (List.replicate (2 ^ 32 + 1) 0) .empty = .ok (true, Encoder.empty.write output) ∧
      Framed (List.replicate (2 ^ 32 + 1) 0) output := by
  rintro ⟨output, hout, hf⟩
  refine not_framed_of_lt ?_ .empty hout hf
  rw [List.length_replicate]
  exact Nat.lt_succ_self _

end Hessian2
