import RecordCodec.Schema.Family

/-! # Sample records

Record types in use: a profile in three releases and the envelope around it, two structs that differ
in the order of their fields alone, an inventory and a telemetry report with fields of many kinds,
and an order with its fills; and sample values of the last three. `qualify` gives each type its full
name.
-/
namespace RecordCodec.Samples

def number (name : String) (s : Scalar) : Field := .mandatory name (.scalar s)

def words (name : String) : Field := .mandatory name .text

/-- A release of the profile, with the fields that it has beside the first two. -/
def profile (qualify : String → String) (release : String) (later : List Field) : String × Schema :=
  let name := qualify s!"{release}::Profile"
  (name, .struct name .named ([number "id" .u32, words "name"] ++ later))

def envelope (qualify : String → String) (release : String) : String × Schema :=
  let name := qualify s!"{release}::Envelope"
  (name,
    .struct name .named
      [number "sequence" .u64, .mandatory "profile" (.reference (qualify s!"{release}::Profile")),
        number "checksum" .u32])

def pair (qualify : String → String) (a b : Schema) : Schema :=
  .struct (Schema.applied (qualify "Pair") [a.name, b.name]) .positional [.of "0" a, .of "1" b]

def inventoryFields (qualify : String → String) : List Field :=
  [.mandatory "owner" (.option .text),
    .mandatory "figures" (.sequence (.reference (qualify "Figure"))),
    .mandatory "counts" (.map .text (.scalar .u64)),
    .mandatory "flags" (.hashSet (.scalar .char)),
    .mandatory "grid" (.array (.array (.scalar .u8) 3) 2),
    .mandatory "ranges" (.sequence (pair qualify (.scalar .i128) (.scalar .u128))),
    .mandatory "outcome" (.result (.scalar .u16) .text),
    .skipped "cache" (.sequence (.scalar .u8)) (.sequence []),
    .compatible "note" 1 .text]

def telemetryFields : List Field :=
  [words "host", .mandatory "samples" (.sequence (.scalar .u32)),
    .mandatory "window" (.tuple [.scalar .u64, .scalar .u64]),
    .mandatory "labels" (.map .text .text), .compatible "region" 3 .text]

def orderFields (qualify : String → String) : List Field :=
  [number "id" .u64, number "customer" .u32, number "price" .f64, words "symbol",
    .mandatory "fills" (.sequence (.reference (qualify "Fill"))),
    .mandatory "attributes" (.map .text .text), .compatible "venue" 1 .text]

def family (qualify : String → String) : Family :=
  let struct name fields := (qualify name, Schema.struct (qualify name) .named fields)
  [profile qualify "v1" [],
    profile qualify "v2" [.compatible "email" 1 .text],
    profile qualify "v3" [.compatible "email" 1 .text, .compatible "phone" 2 (.scalar .u64)],
    envelope qualify "v1", envelope qualify "v2", envelope qualify "v3",
    struct "IdFirst" [number "id" .u32, words "name"],
    struct "NameFirst" [words "name", number "id" .u32],
    (qualify "Figure",
      .enum (qualify "Figure") "Figure"
        [.mk "Empty" .unit [], .mk "Circle" .named [number "radius" .f64],
          .mk "Rect" .positional [number "0" .f32, number "1" .f32]]),
    struct "Inventory" (inventoryFields qualify),
    struct "Telemetry" telemetryFields,
    struct "Order" (orderFields qualify),
    struct "Fill" [number "quantity" .u32, number "price" .f64, number "timestamp" .u64]]

def names (qualify : String → String) : List (String × String) :=
  ["v1::Profile", "v2::Profile", "v3::Profile", "v1::Envelope", "v2::Envelope", "v3::Envelope",
    "IdFirst", "NameFirst", "Figure", "Inventory", "Telemetry", "Order", "Fill"].map
    fun name => (name, qualify name)

def numbers (ns : List Int) : Value := .sequence (ns.map .int)

def inventory : Value :=
  .record
    [.present (.text "ops"),
      .sequence
        [.variant 0 [], .variant 1 [.float 0x3FF8000000000000],
          .variant 2 [.float 0x40000000, .float 0xC0400000]],
      .mapOf [(.text "bolts", .int 12), (.text "nuts", .int 0)],
      .setOf [.char 'x', .char 'ß', .char '🦀'],
      .sequence [numbers [1, 2, 3], numbers [4, 5, 6]],
      .sequence [.record [.int (-0x80000000000000000000000000000000),
          .int 0xFFFFFFFFFFFFFFFFFFFFFFFFFFFFFFFF], .record [.int 0, .int 1]],
      .variant 1 [.text "pending"], .sequence [], .present (.text "restocked")]

/-- A report of the telemetry type: host, samples, window and label follow from a seed of 32 bits,
and even seeds have a region. -/
def telemetry (seed : Nat) : Value :=
  .record
    [.text s!"host-{seed}",
      numbers ((List.range (seed % 17)).map fun i => (i * seed % 0x100000000 : Nat)),
      .record [.int seed, .int (seed + 60)], .mapOf [(.text "rack", .text s!"{seed % 4}")],
      if seed % 2 = 0 then .present (.text "eu") else .absent]

/-- An order with a number of fills, each dearer and later than the one before. -/
def order (fills : Nat) : Value :=
  .record
    [.int 1000042, .int 7, .float 0x4059500000000000, .text "WPK",
      .sequence ((List.range fills).map fun i =>
        .record [.int 10, .float (100.0 + Float.ofNat i).toBits.toNat, .int (1700000000 + i)]),
      .mapOf [(.text "desk", .text "rates")], .present (.text "XLON")]

end RecordCodec.Samples
