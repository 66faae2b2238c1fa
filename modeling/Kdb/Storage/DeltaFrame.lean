/-
Page frames of the delta log (`storage/delta/page_codec.go`, `compression/crc32.go`): a commit's payload, compressed or
not, behind a 20-byte header with the magic, the version, the codec, both lengths and the CRC-32 of the body.

- `appendFrame`, `frameBody`, `framePayload`, `parseCommit`: writing a frame and reading it back.
- `parseCommit_frame`: a frame the writer made parses to its commit.

The compressor and the decoding of a commit's payload are parameters (`PayloadCodec`), with the laws the format rests on:
decompression undoes compression, no body is empty, and no commit has an empty payload. Lengths fit the header's 32-bit
fields (`DeltaRecord`). A codec other than the two known ones is an error before anything is written, so it is not a
value here; pooled buffers are left out.
-/
import Kdb.Lib.Bytes

namespace Kdb.Delta

open Bytes List

def crcBit (c : UInt32) : UInt32 := if c &&& 1 ≠ 0 then (0xEDB88320 : UInt32) ^^^ (c >>> 1) else c >>> 1

def crcByte (c : UInt32) (b : UInt8) : UInt32 := crcBit^[8] (c ^^^ b.toUInt32)

/-- `CRC32All`: the IEEE CRC-32 -/
def crc32 (b : Bytes) : UInt32 := ~~~ b.foldl crcByte 0xFFFFFFFF

example : crc32 [0x31, 0x32, 0x33, 0x34, 0x35, 0x36, 0x37, 0x38, 0x39] = 0xCBF43926 := by decide +kernel

inductive CompressionCodec where
  | none
  | zstd
  deriving DecidableEq

def pageCodecNone : UInt8 := 0

def pageCodecZSTD : UInt8 := 1

def pageCodecID : CompressionCodec → UInt8
  | .none => pageCodecNone
  | .zstd => pageCodecZSTD

/-- `PageFrameHeaderSize` -/
def frameHeaderSize : ℕ := 20

def pageFormatVersion : UInt8 := 2

/-- the compressor, and the decoding of a payload into a commit -/
structure PayloadCodec (γ : Type) where
  compress : Bytes → Bytes
  decompress : Bytes → ℕ → Except String Bytes
  fromPayloadBytes : Bytes → Except String γ
  decompress_compress : ∀ p : Bytes, p.length < 2 ^ 32 → decompress (compress p) p.length = .ok p
  compress_ne_nil : ∀ p, compress p ≠ []
  fromPayloadBytes_nil : ∀ c, fromPayloadBytes [] ≠ .ok c

variable {γ : Type} (P : PayloadCodec γ)

def appendFrame (dst payload : Bytes) (codec : CompressionCodec) : Bytes :=
  let id := pageCodecID codec
  let body := if id = pageCodecNone then payload else P.compress payload
  dst ++ [0x4B, 0x44, 0x42, 0x50, pageFormatVersion, id, 0, 0] ++
    be32 body.length ++ be32 payload.length ++ be32 (crc32 body).toNat ++ body

/-- `frameBody`: the body, the codec and the recorded uncompressed size -/
def frameBody (frame : Bytes) : Except String (Bytes × UInt8 × ℕ) :=
  if frame.length < frameHeaderSize then .error "delta page: frame shorter than its 20-byte header"
  else if byteAt frame 4 ≠ pageFormatVersion then
    .error ("delta page: unsupported frame version " ++ toString (byteAt frame 4).toNat ++
      " (this build writes and reads v2)")
  else if byteAt frame 5 ≠ pageCodecNone ∧ byteAt frame 5 ≠ pageCodecZSTD then
    .error ("delta page: unknown codec id " ++ toString (byteAt frame 5).toNat ++ " in frame")
  else .ok (frame.drop frameHeaderSize, byteAt frame 5, readBE frame 12)

def framePayload (frame : Bytes) : Except String Bytes :=
  match frameBody frame with
  | .error e => .error e
  | .ok (body, codecID, uncompressed) =>
    if codecID = pageCodecNone then .ok body else P.decompress body uncompressed

def parseCommit (frame : Bytes) : Except String γ :=
  match framePayload P frame with
  | .error e => .error e
  | .ok payload => P.fromPayloadBytes payload

/-- a commit's payload as the writer frames it, with lengths that fit the header -/
structure DeltaRecord where
  commitPayload : Bytes
  codec : CompressionCodec
  commit : γ
  decodes : P.fromPayloadBytes commitPayload = .ok commit
  payload_lt : commitPayload.length < 2 ^ 32
  compressed_lt : (P.compress commitPayload).length < 2 ^ 32

namespace DeltaRecord

variable {P} (r : DeltaRecord P)

/-- the frame's body -/
def body : Bytes := if pageCodecID r.codec = pageCodecNone then r.commitPayload else P.compress r.commitPayload

/-- the frame's header -/
def header : Bytes :=
  [0x4B, 0x44, 0x42, 0x50, pageFormatVersion, pageCodecID r.codec, 0, 0] ++
    be32 r.body.length ++ be32 r.commitPayload.length ++ be32 (crc32 r.body).toNat

def frame : Bytes := appendFrame P [] r.commitPayload r.codec

theorem frame_eq : r.frame = r.header ++ r.body := by
  simp [frame, appendFrame, header, body]

theorem length_header : r.header.length = frameHeaderSize := by
  simp [header, be32, frameHeaderSize]

theorem length_frame : r.frame.length = frameHeaderSize + r.body.length := by
  rw [frame_eq, length_append, length_header]

theorem body_lt : r.body.length < 2 ^ 32 := by
  unfold body
  split
  · exact r.payload_lt
  · exact r.compressed_lt

theorem body_ne_nil : r.body ≠ [] := by
  unfold body
  split
  · intro hnil
    apply P.fromPayloadBytes_nil r.commit
    rw [← hnil, r.decodes]
  · exact P.compress_ne_nil _

theorem body_pos : 0 < r.body.length := length_pos_of_ne_nil r.body_ne_nil

/-- the first bytes of a frame, whatever follows it -/
theorem header_bytes (rest : Bytes) :
    byteAt (r.frame ++ rest) 0 = 0x4B ∧ byteAt (r.frame ++ rest) 1 = 0x44 ∧ byteAt (r.frame ++ rest) 2 = 0x42 ∧
      byteAt (r.frame ++ rest) 3 = 0x50 ∧ byteAt (r.frame ++ rest) 4 = pageFormatVersion ∧
      byteAt (r.frame ++ rest) 5 = pageCodecID r.codec := by
  simp [frame_eq, header, byteAt]

/-- the numbers of a frame's header -/
theorem header_numbers (rest : Bytes) : readBE (r.frame ++ rest) 8 = r.body.length ∧
    readBE (r.frame ++ rest) 12 = r.commitPayload.length ∧ readBE (r.frame ++ rest) 16 = (crc32 r.body).toNat := by
  have hsplit : r.frame ++ rest = [0x4B, 0x44, 0x42, 0x50, pageFormatVersion, pageCodecID r.codec, 0, 0] ++
      (be32 r.body.length ++ (be32 r.commitPayload.length ++ (be32 (crc32 r.body).toNat ++ (r.body ++ rest)))) := by
    simp [frame_eq, header]
  have hpast : ∀ (v : ℕ) (b : Bytes) (i : ℕ), readBE (be32 v ++ b) (4 + i) = readBE b i := fun v => readBE_append (be32 v)
  rw [hsplit]
  refine ⟨(readBE_append _ _ 0).trans (readBE_be32 _ r.body_lt), (readBE_append _ _ 4).trans ?_,
    (readBE_append _ _ 8).trans ?_⟩
  · exact (hpast _ _ 0).trans (readBE_be32 _ r.payload_lt)
  · exact (hpast _ _ 4).trans ((hpast _ _ 0).trans (readBE_be32 _ (crc32 r.body).toNat_lt))

theorem drop_header : r.frame.drop frameHeaderSize = r.body := by
  rw [frame_eq, ← length_header, drop_left]

theorem frameBody_frame : frameBody r.frame = .ok (r.body, pageCodecID r.codec, r.commitPayload.length) := by
  have hb := r.header_bytes []
  have hu := (r.header_numbers []).2.1
  rw [append_nil] at hb hu
  obtain ⟨-, -, -, -, hversion, hcodec⟩ := hb
  have hlen : ¬ r.frame.length < frameHeaderSize := by
    rw [length_frame]
    omega
  have hknown : ¬ (pageCodecID r.codec ≠ pageCodecNone ∧ pageCodecID r.codec ≠ pageCodecZSTD) := by
    cases r.codec <;> simp [pageCodecID]
  rw [frameBody, if_neg hlen, hversion, if_neg (by simp), hcodec, if_neg hknown, drop_header, hu]

/-- **Frames parse.** The frame of a record parses to its commit. -/
theorem parseCommit_frame : parseCommit P r.frame = .ok r.commit := by
  have hpayload : framePayload P r.frame = .ok r.commitPayload := by
    simp only [framePayload, frameBody_frame]
    by_cases hid : pageCodecID r.codec = pageCodecNone
    · simp [hid, body]
    · simp only [hid, body]
      exact P.decompress_compress _ r.payload_lt
  simp only [parseCommit, hpayload, r.decodes]

end DeltaRecord

end Kdb.Delta
