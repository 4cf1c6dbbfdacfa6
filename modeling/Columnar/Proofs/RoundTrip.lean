import Columnar.Proofs.Item
import Columnar.Proofs.Piece

/-!
Payloads are read back as they were written. A cursor over any chunks of a payload, asked for its
items in order, gives every item back and stands at the end of the payload, and the next read ends
the stream.
-/
namespace Columnar

namespace WireItem

/-- What the step of an item takes of the payload. -/
def piece (item : WireItem) : Piece where
  bytes := item.encode
  sizes := item.blocks
  value := item.value

theorem content_pieces (items : List WireItem) : Piece.content (items.map piece) = payload items := by
  induction items with
  | nil => rfl
  | cons item items ih =>
    rw [List.map_cons, Piece.content_cons, ih]
    rfl

theorem reads_pieces (items : List WireItem)
    (hblocks : ∀ item ∈ items, ∀ size ∈ item.blocks, size ≤ 2 ^ 61) :
    Reads .utf8 (items.map step) (items.map piece) := by
  induction items with
  | nil => exact .nil
  | cons item items ih =>
    have hitem := consumes_item item (hblocks item List.mem_cons_self)
    have hitems := ih fun later hmem => hblocks later (List.mem_cons_of_mem item hmem)
    exact .cons hitem hitems

end WireItem

/-- The items of a payload come back through any chunks, and nothing else does. -/
theorem payload_read_back [ChunkSource σ] {config : DecoderConfig} {source : σ}
    {chunks : List Chunk} {items : List WireItem} (hvalid : config.validate = .ok ())
    (hencoding : config.encoding = .utf8) (hscratch : config.initialScratchCapacity ≤ 2 ^ 62)
    (hsource : Delivers source chunks) (hpayload : joined chunks = WireItem.payload items)
    (hblocks : ∀ item ∈ items, ∀ size ∈ item.blocks, size ≤ min config.maxReadSize (2 ^ 61)) :
    ∃ cursor, Cursor.ofConfig config source = .ok cursor ∧
      (ReadStep.observe Cursor.byteSource Cursor.position (items.map WireItem.step) cursor).map
          Prod.fst = items.map (fun item => .ok item.value) ∧
      (ReadStep.finish Cursor.byteSource (items.map WireItem.step) cursor).position =
        (WireItem.payload items).length ∧
      (ReadStep.finish Cursor.byteSource (items.map WireItem.step) cursor).readByte.1 =
        .error (.error (.endOfStream 1 0)) := by
  have hcursor : Cursor.ofConfig config source = .ok { source, config } := by
    rw [Cursor.ofConfig, hvalid]
  have hstart := Cursor.represents_ofConfig hcursor hsource
  have hslice : Slice.ofBytes (joined chunks) config.encoding =
      ⟨Piece.content (items.map WireItem.piece) ++ [], 0, .utf8⟩ := by
    rw [hpayload, hencoding, WireItem.content_pieces, List.append_nil]
    rfl
  rw [hslice] at hstart
  have hreads : Reads .utf8 (items.map WireItem.step) (items.map WireItem.piece) := by
    apply WireItem.reads_pieces
    intro item hitem size hsize
    have hmin := hblocks item hitem size hsize
    omega
  have hsizes : ∀ size ∈ (items.map WireItem.piece).flatMap Piece.sizes,
      size ≤ min config.maxReadSize (2 ^ 61) := by
    intro size hsize
    obtain ⟨piece, hpiece, hsize⟩ := List.mem_flatMap.mp hsize
    obtain ⟨item, hitem, rfl⟩ := List.mem_map.mp hpiece
    exact hblocks item hitem size hsize
  have hobserved := hstart.observed hscratch hreads hsizes
  have hfinished := hstart.finished hscratch hreads hsizes
  refine ⟨_, hcursor, ?_, ?_, ?_⟩
  · rw [hobserved, Piece.map_fst_observed, List.map_map]
    rfl
  · have hposition := hfinished.position
    rw [WireItem.content_pieces] at hposition
    simpa only [Nat.zero_add] using hposition
  · exact hfinished.readByte.result

def writtenItems : List WireItem :=
  [.varint 300, .u16 0xbeef, .i64 (-2), .text "né", .uuid ⟨0x00112233445566778899aabbccddeeff⟩,
    .nullMask [true, false]]

/-- Cut inside the varint, the number, the length in front of the text, a character, the halves of
the identifier and the mask. -/
def writtenChunks : List Chunk :=
  [⟨0xac, []⟩, ⟨0x02, [0xef]⟩, ⟨0xbe, [0xfe, 0xff, 0xff]⟩, ⟨0xff, [0xff, 0xff, 0xff, 0xff]⟩,
    ⟨3, [110, 0xc3]⟩, ⟨0xa9, [0x88, 0x99, 0xaa, 0xbb, 0xcc, 0xdd, 0xee]⟩,
    ⟨0xff, [0x00, 0x11, 0x22, 0x33, 0x44, 0x55, 0x66, 0x77, 1]⟩, ⟨0, []⟩]

theorem payload_read_back_written :
    joined writtenChunks = WireItem.payload writtenItems ∧
    ∃ cursor, Cursor.ofConfig {} (writtenChunks.map Chunk.bytes ++ []) = .ok cursor ∧
      (ReadStep.observe Cursor.byteSource Cursor.position (writtenItems.map WireItem.step)
          cursor).map Prod.fst =
        [.ok (.natural 300), .ok (.column [.integer 0xbeef]), .ok (.column [.integer (-2)]),
          .ok (.text "né"), .ok (.column [.uuid ⟨0x00112233445566778899aabbccddeeff⟩]),
          .ok (.mask ⟨[1, 0]⟩)] ∧
      (ReadStep.finish Cursor.byteSource (writtenItems.map WireItem.step) cursor).position =
        (WireItem.payload writtenItems).length ∧
      (ReadStep.finish Cursor.byteSource (writtenItems.map WireItem.step) cursor).readByte.1 =
        .error (.error (.endOfStream 1 0)) := by
  have hpayload : joined writtenChunks = WireItem.payload writtenItems := by decide +kernel
  exact ⟨hpayload, payload_read_back DecoderConfig.validate_default rfl (by decide)
    (delivers_list writtenChunks rfl) hpayload (by decide +kernel)⟩

end Columnar
