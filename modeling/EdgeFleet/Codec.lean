import EdgeFleet.Compression.Gzip
import EdgeFleet.Compression.Zstd.Frame

/-! # Codecs for snapshots -/

namespace EdgeFleet

/-- How the octets of a snapshot are stored. -/
inductive Codec where
  | none | gzip | deflate | zstd
  deriving DecidableEq, Inhabited

namespace Codec

def name : Codec → String
  | none => "none"
  | gzip => "gzip"
  | deflate => "deflate"
  | zstd => "zstd"

def ofName? (s : String) : Option Codec :=
  [none, gzip, deflate, zstd].find? fun c => c.name = s

def compress : Codec → Bytes → Bytes
  | none, bs => bs
  | gzip, bs => Gzip.encode bs
  | deflate, bs => Deflate.encode bs
  | zstd, bs => Zstd.encode bs

/-- The data that was compressed, if `bs` is a compressed form. -/
def decompress? : Codec → Bytes → Option Bytes
  | none, bs => some bs
  | gzip, bs => Gzip.decode? bs
  | deflate, bs => (Deflate.decode? bs).map (·.1)
  | zstd, bs => Zstd.decode? bs

/-- What is said when data cannot be decompressed. -/
def failure (c : Codec) : String := c.name ++ " decompression failed"

end Codec

end EdgeFleet
