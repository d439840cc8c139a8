import EdgeFleet.Codec
import EdgeFleet.Proofs.Compression.Deflate
import EdgeFleet.Proofs.Compression.Zstd

/-! # Every codec restores its data -/

namespace EdgeFleet.Codec

theorem gzip_append (data tail : Bytes) : gzip.decompress? (gzip.compress data ++ tail) = some data :=
  Gzip.decode?_encode data tail

theorem deflate_append (data tail : Bytes) :
    deflate.decompress? (deflate.compress data ++ tail) = some data := by
  rw [decompress?, compress, Deflate.decode?_encode, Option.map_some]

theorem decompress?_compress (c : Codec) (data : Bytes) : c.decompress? (c.compress data) = some data := by
  cases c with
  | none => rfl
  | gzip => simpa using gzip_append data []
  | deflate => simpa using deflate_append data []
  | zstd => simpa [decompress?, compress] using Zstd.decode?_encode data []

/-- Data is restored from its compressed form. Gzip and deflate ignore what follows that form; the others go on
to restore it when it is compressed data too. -/
theorem restores_data (c : Codec) (data : Bytes) :
    c.decompress? (c.compress data) = some data ∧
    (c = gzip ∨ c = deflate → ∀ tail, c.decompress? (c.compress data ++ tail) = some data) ∧
    (c = none ∨ c = zstd → ∀ more : List Bytes,
      c.decompress? (c.compress data ++ more.flatMap c.compress) = some (data ++ more.flatten)) := by
  refine ⟨decompress?_compress c data, ?_, ?_⟩
  · rintro (rfl | rfl)
    · exact gzip_append data
    · exact deflate_append data
  · rintro (rfl | rfl) more
    · have hsame : none.compress = id := rfl
      simp [decompress?, hsame, List.flatMap_def]
    · exact Zstd.decode?_encode data more

theorem compress_ne_nil (c : Codec) {data : Bytes} (h : data ≠ []) : c.compress data ≠ [] := by
  cases c with
  | none => exact h
  | gzip => simp [compress, Gzip.encode, Gzip.header]
  | deflate => exact Deflate.encode_ne_nil data
  | zstd => exact Zstd.encode_ne_nil data

end EdgeFleet.Codec
