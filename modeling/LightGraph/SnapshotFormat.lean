import LightGraph.Lib.Json
import LightGraph.Storage.Bincode
import LightGraph.Snapshot

/-!
# The files of a snapshot

The text `serde_json::to_string_pretty` makes of the manifest and the bytes
`bincode::serialize` makes of the snapshot, as codecs. What is proved about snapshots rests on
the laws of `SerdeJson` and `Bincode` alone; these are the instances a closed run needs.
-/

set_option autoImplicit false

namespace LightGraph

open Lib

/-! ## The manifest -/

/-- A codec is a printer and a parser that obey the laws. -/
@[reducible] def Codec.toSerdeJson {α : Type} (c : Codec α) : SerdeJson α where
  toStringPretty := c.put
  fromStr data := (c.get data).map Prod.fst
  roundtrip a := by
    rw [c.get_put_self]
    rfl
  truncated a start hpre hne := by
    rw [c.get_of_cut a hpre hne]
    rfl

/-- A field of a document: its name, then the value. -/
def field {α : Type} (text : String) (c : Codec α) : Codec α :=
  ((Codec.literal (ascii text)).pair c).map Prod.snd (fun a => ((), a)) fun _ => rfl

def comma : UInt8 := 0x2C

/-- An array of strings, one on a line; the bracket that opens it is written with its name. -/
def stringsCodec : Codec (List String) :=
  ((Codec.quoted.pair (Codec.quoted.series (ascii ",\n    ") (ascii "\n  ]")
      ⟨by decide, by decide⟩)).choice (ascii "\n    ") (ascii "]") ⟨by decide, by decide⟩).map
    (fun o => match o with
      | none => []
      | some (s, ss) => s :: ss)
    (fun ss => match ss with
      | [] => none
      | s :: ss => some (s, ss))
    (fun ss => by cases ss <;> rfl)

def manifestCodec : Codec Manifest :=
  ((field "\x7b\n  \"latest_snapshot_id\": " (Codec.number comma (by decide))).pair
    ((field "\n  \"latest_snapshot_path\": " Codec.quoted).pair
      ((field ",\n  \"merged_wal_files\": [" stringsCodec).pair
        (Codec.literal (ascii "\n\x7d"))))).map
    (fun (latestSnapshotId, latestSnapshotPath, mergedWalFiles, _) =>
      { latestSnapshotId, latestSnapshotPath, mergedWalFiles })
    (fun m => (m.latestSnapshotId, m.latestSnapshotPath, m.mergedWalFiles, ()))
    fun _ => rfl

instance : SerdeJson Manifest := Codec.toSerdeJson manifestCodec

/-! ## The snapshot -/

def columnCodec : Codec (LabelId × String × List (Option Value)) :=
  Codec.u32.pair (Codec.string.pair (Codec.list (Codec.option valueCodec)))

def snapshotCodec : Codec SnapshotData :=
  (Codec.u32.pair (Codec.u64.pair ((Codec.list nodeCodec).pair ((Codec.list edgeCodec).pair
    ((Codec.list columnCodec).pair (Codec.u64.pair Codec.u64)))))).map
    (fun (version, snapshotId, nodes, edges, propColumns, nextNodeId, nextEdgeId) =>
      { version, snapshotId, nodes, edges, propColumns, nextNodeId, nextEdgeId })
    (fun d => (d.version, d.snapshotId, d.nodes, d.edges, d.propColumns, d.nextNodeId,
      d.nextEdgeId))
    fun _ => rfl

instance : Bincode SnapshotData := Codec.toBincode snapshotCodec

/-- The text the manifest's file has after a first snapshot. -/
example : (SerdeJson.toStringPretty
      ({ latestSnapshotId := 1
         latestSnapshotPath := "snapshot-0001.bin"
         mergedWalFiles := ["nodes.wal"] } : Manifest))
    = ascii ("\x7b\n  \"latest_snapshot_id\": 1,\n  \"latest_snapshot_path\": "
        ++ "\"snapshot-0001.bin\",\n  \"merged_wal_files\": [\n    \"nodes.wal\"\n  ]\n\x7d") := by
  decide +kernel

end LightGraph
