-- SUMMARY: The reports on a circuit that was taken apart, and the files they go to.
import CircuitEquiv.Decomposition
import CircuitEquiv.File.Path
import CircuitEquiv.Report.Writing

/-!
# Node reports

The nodes with their classes go to one file, or the nodes to one and the classes to another.
-/

namespace CircuitEquiv

/-- The object of a node. -/
def Dag.nodeJson (d : Dag) (id : NodeId) : Json :=
  let n := d.node id
  .ofFields [("node_id", .nat id), ("constraints", .nats n.constraints),
    ("input_signals", .nats n.inputs.toList), ("output_signals", .nats n.outputs.toList),
    ("successors", .nats (d.successors id)), ("signals", .nats n.signals.toList)]

/-- The members of classes. -/
def membersJson (classes : List NodeClass) : Json := .array (classes.map fun c => .nats c.members)

/-- The mappings of classes from the representative to each of the others, null where there is
none. -/
def mappingsJson (classes : List NodeClass) : Json :=
  .array (classes.map fun c =>
    .array (c.others.map fun (_, m) => (m.map Mapping.toJson).getD .null))

/-- The object of a near match. -/
def NearMatch.toJson (near : NearMatch) (withMapping : Bool) : Json :=
  .ofFields ([("left", .nat near.left), ("right", .nat near.right), ("matched", .nat near.matched),
      ("total", .nat near.total)] ++
    if withMapping then [("mapping", near.mapping.toJson)] else [])

/-- The fields of the classes. -/
def NodeClasses.fields (c : NodeClasses) (withMappings : Bool) : List (String × Json) :=
  [("equivalency_local", membersJson c.localClasses),
    ("equivalency_structural", membersJson c.structuralClasses)] ++
  (if withMappings then
    [("equiv_mapping_local", mappingsJson c.localClasses),
      ("equiv_mapping_structural", mappingsJson c.structuralClasses)]
  else []) ++
  (if c.nearMatches.isEmpty then []
  else [("maximal_equivalence", .array (c.nearMatches.map (·.toJson withMappings)))])

namespace Decomposition

variable (found : Decomposition)

/-- The field of the nodes. -/
def nodeFields : List (String × Json) :=
  [("nodes", .array (found.dag.live.toList.map found.dag.nodeJson))]

/-- The fields about the run itself. -/
def runFields : List (String × Json) :=
  [("timing", found.timings.toJson Stage.name), ("seed", .nat found.seed.toNat)]

/-- The report in one piece. -/
def report (withMappings : Bool) : Json :=
  .ofFields (found.nodeFields ++ found.classes.fields withMappings ++ found.runFields)

/-- The names of the files to write, and what goes into each. -/
def files (withMappings single : Bool) (stem : String) : List (String × Json) :=
  if single then [(stem ++ ".json", found.report withMappings)]
  else
    [(stem ++ "_nodes.json", .ofFields (found.nodeFields ++ found.runFields)),
      (stem ++ "_equivalence.json", .ofFields (found.classes.fields withMappings))]

/-- Writes the files to a directory and returns their paths. -/
def write (withMappings single : Bool) (directory stem : String) :
    ExceptT WriteError Interaction (List String) := do
  if !(← Interaction.createDirectory directory) then throw (.unwritable directory)
  (found.files withMappings single stem).mapM fun (name, report) => do
    let path := Path.join directory name
    writeReport path report
    return path

end Decomposition

end CircuitEquiv
