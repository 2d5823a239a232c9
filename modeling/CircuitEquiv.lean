import CircuitEquiv.Circuit
import CircuitEquiv.Circuit.Error
import CircuitEquiv.Circuit.Statistics
import CircuitEquiv.Clustering
import CircuitEquiv.Clustering.Attraction
import CircuitEquiv.Clustering.Graph
import CircuitEquiv.Clustering.Modularity
import CircuitEquiv.Clustering.Partition
import CircuitEquiv.Clustering.SignalEquivalence
import CircuitEquiv.CommandLine.Cluster
import CircuitEquiv.CommandLine.Command
import CircuitEquiv.CommandLine.Compare
import CircuitEquiv.CommandLine.Grammar
import CircuitEquiv.CommandLine.Value
import CircuitEquiv.Constraint
import CircuitEquiv.Constraint.Acir
import CircuitEquiv.Constraint.Divisor
import CircuitEquiv.Constraint.R1cs
import CircuitEquiv.Constraint.Shape
import CircuitEquiv.Constraint.Terms
import CircuitEquiv.Dag
import CircuitEquiv.Dag.Error
import CircuitEquiv.Dag.Merge
import CircuitEquiv.Dag.Quotient
import CircuitEquiv.Dag.SubCircuit
import CircuitEquiv.Data.DisjointForest
import CircuitEquiv.Data.Numbering
import CircuitEquiv.Data.Order
import CircuitEquiv.Data.Reach
import CircuitEquiv.Data.SortedMap
import CircuitEquiv.Data.SortedSet
import CircuitEquiv.Data.Tally
import CircuitEquiv.Data.Total
import CircuitEquiv.Data.UnionFind
import CircuitEquiv.Decomposition
import CircuitEquiv.Difference
import CircuitEquiv.Equivalence
import CircuitEquiv.Equivalence.Deadline
import CircuitEquiv.Equivalence.Encoding
import CircuitEquiv.Equivalence.Error
import CircuitEquiv.Equivalence.Maximal
import CircuitEquiv.Equivalence.Outcome
import CircuitEquiv.Equivalence.Policy
import CircuitEquiv.Field
import CircuitEquiv.Field.Primality
import CircuitEquiv.File.AcirFile
import CircuitEquiv.File.Bytes
import CircuitEquiv.File.CircuitFile
import CircuitEquiv.File.Coefficient
import CircuitEquiv.File.Error
import CircuitEquiv.File.Path
import CircuitEquiv.File.R1csFile
import CircuitEquiv.Interaction
import CircuitEquiv.Interaction.FileSystem
import CircuitEquiv.Interaction.Stopwatch
import CircuitEquiv.Label
import CircuitEquiv.Main
import CircuitEquiv.Mapping
import CircuitEquiv.Matching.Candidates
import CircuitEquiv.Matching.Draft
import CircuitEquiv.Matching.PairShape
import CircuitEquiv.NodeClasses
import CircuitEquiv.NodeClasses.Depth
import CircuitEquiv.NodeClasses.Folding
import CircuitEquiv.Proofs.Circuit.Composition
import CircuitEquiv.Proofs.Circuit.FullEquivalence
import CircuitEquiv.Proofs.Circuit.MappingAlgebra
import CircuitEquiv.Proofs.Circuit.NormCorrespondence
import CircuitEquiv.Proofs.Circuit.PartialEquivalence
import CircuitEquiv.Proofs.Circuit.Roles
import CircuitEquiv.Proofs.Circuit.Sanity
import CircuitEquiv.Proofs.Circuit.Satisfaction
import CircuitEquiv.Proofs.Clustering.Attraction
import CircuitEquiv.Proofs.Clustering.Graph
import CircuitEquiv.Proofs.Clustering.Levels
import CircuitEquiv.Proofs.Clustering.LocalMoving
import CircuitEquiv.Proofs.Clustering.Modularity
import CircuitEquiv.Proofs.Clustering.SignalEquivalence
import CircuitEquiv.Proofs.Constraint.Canonical
import CircuitEquiv.Proofs.Constraint.Construction
import CircuitEquiv.Proofs.Constraint.Divisor
import CircuitEquiv.Proofs.Constraint.FormalPolynomial
import CircuitEquiv.Proofs.Constraint.Matching
import CircuitEquiv.Proofs.Constraint.NormalForm
import CircuitEquiv.Proofs.Constraint.Polynomial
import CircuitEquiv.Proofs.Constraint.RenamedForms
import CircuitEquiv.Proofs.Constraint.Renaming
import CircuitEquiv.Proofs.Constraint.Satisfaction
import CircuitEquiv.Proofs.Constraint.Shape
import CircuitEquiv.Proofs.Constraint.ShapeLabels
import CircuitEquiv.Proofs.Constraint.TermSums
import CircuitEquiv.Proofs.Constraint.Terms
import CircuitEquiv.Proofs.Dag.CycleTest
import CircuitEquiv.Proofs.Dag.Distances
import CircuitEquiv.Proofs.Dag.Merge
import CircuitEquiv.Proofs.Dag.MergeFrame
import CircuitEquiv.Proofs.Dag.MergePass
import CircuitEquiv.Proofs.Dag.NodeMapping
import CircuitEquiv.Proofs.Dag.Quotient
import CircuitEquiv.Proofs.Dag.SubCircuit
import CircuitEquiv.Proofs.Dag.Validity
import CircuitEquiv.Proofs.Dag.WellFormed
import CircuitEquiv.Proofs.Data.Binary64
import CircuitEquiv.Proofs.Data.DisjointForest
import CircuitEquiv.Proofs.Data.DisjointSets
import CircuitEquiv.Proofs.Data.Distances
import CircuitEquiv.Proofs.Data.Failure
import CircuitEquiv.Proofs.Data.IdTable
import CircuitEquiv.Proofs.Data.Numbering
import CircuitEquiv.Proofs.Data.Ordered
import CircuitEquiv.Proofs.Data.Reach
import CircuitEquiv.Proofs.Equivalence.Classes
import CircuitEquiv.Proofs.Equivalence.CommonPart
import CircuitEquiv.Proofs.Equivalence.Completion
import CircuitEquiv.Proofs.Equivalence.Correspondence
import CircuitEquiv.Proofs.Equivalence.Decoding
import CircuitEquiv.Proofs.Equivalence.Encoder
import CircuitEquiv.Proofs.Equivalence.Exactness
import CircuitEquiv.Proofs.Equivalence.MaximalFormula
import CircuitEquiv.Proofs.Equivalence.MaximalSearch
import CircuitEquiv.Proofs.Equivalence.Narrowing
import CircuitEquiv.Proofs.Equivalence.Rounds
import CircuitEquiv.Proofs.Equivalence.Signals
import CircuitEquiv.Proofs.Equivalence.Steps
import CircuitEquiv.Proofs.Equivalence.Verdict
import CircuitEquiv.Proofs.Field.Arithmetic
import CircuitEquiv.Proofs.Field.Primality
import CircuitEquiv.Proofs.File.AcirMeaning
import CircuitEquiv.Proofs.File.AcirWitnesses
import CircuitEquiv.Proofs.File.Bytes
import CircuitEquiv.Proofs.File.Coefficients
import CircuitEquiv.Proofs.File.Modulus
import CircuitEquiv.Proofs.File.R1csLayout
import CircuitEquiv.Proofs.Interaction.Endings
import CircuitEquiv.Proofs.Matching.CandidateRuns
import CircuitEquiv.Proofs.Matching.Candidates
import CircuitEquiv.Proofs.Matching.CarriedNorms
import CircuitEquiv.Proofs.Matching.Draft
import CircuitEquiv.Proofs.Matching.NormMatching
import CircuitEquiv.Proofs.Matching.PairShape
import CircuitEquiv.Proofs.NodeClasses.ClassMappings
import CircuitEquiv.Proofs.NodeClasses.FoldedClasses
import CircuitEquiv.Proofs.NodeClasses.Folding
import CircuitEquiv.Proofs.NodeClasses.LocalClasses
import CircuitEquiv.Proofs.NodeClasses.LookAlikes
import CircuitEquiv.Proofs.NodeClasses.NodeComparison
import CircuitEquiv.Proofs.NodeClasses.PartialWitness
import CircuitEquiv.Proofs.NodeClasses.Propagation
import CircuitEquiv.Proofs.NodeClasses.Splitting
import CircuitEquiv.Proofs.NodeClasses.Surroundings
import CircuitEquiv.Proofs.NodeClasses.VertexNumbering
import CircuitEquiv.Proofs.Refinement.Balance
import CircuitEquiv.Proofs.Refinement.ClassTable
import CircuitEquiv.Proofs.Refinement.Groups
import CircuitEquiv.Proofs.Refinement.Invariance
import CircuitEquiv.Proofs.Refinement.Labelling
import CircuitEquiv.Proofs.Refinement.Lockstep
import CircuitEquiv.Proofs.Refinement.Partition
import CircuitEquiv.Proofs.Refinement.Partners
import CircuitEquiv.Proofs.Refinement.Saturation
import CircuitEquiv.Proofs.Refinement.SideGraph
import CircuitEquiv.Proofs.Refinement.Termination
import CircuitEquiv.Proofs.Sat.Cardinality
import CircuitEquiv.Proofs.Sat.Clause
import CircuitEquiv.Proofs.Sat.IssuedOutputs
import CircuitEquiv.Proofs.Sat.IssuedVariables
import CircuitEquiv.Proofs.Sat.Totalizer
import CircuitEquiv.Proofs.Text.IntegerSpelling
import CircuitEquiv.Proofs.Text.IntegerText
import CircuitEquiv.Propagation
import CircuitEquiv.Refinement
import CircuitEquiv.Refinement.SideGraph
import CircuitEquiv.Refinement.Split
import CircuitEquiv.Report.NodeReport
import CircuitEquiv.Report.Verdict
import CircuitEquiv.Report.Writing
import CircuitEquiv.Sat.Branching
import CircuitEquiv.Sat.Cardinality
import CircuitEquiv.Sat.Consequence
import CircuitEquiv.Sat.Derivation
import CircuitEquiv.Sat.Formula
import CircuitEquiv.Sat.Learning
import CircuitEquiv.Sat.Literal
import CircuitEquiv.Sat.LiteralCode
import CircuitEquiv.Sat.PartialAssignment
import CircuitEquiv.Sat.Renumbering
import CircuitEquiv.Sat.Search
import CircuitEquiv.Sat.Solver
import CircuitEquiv.Sat.Totalizer
import CircuitEquiv.Sat.Trail
import CircuitEquiv.Sat.VariableHeap
import CircuitEquiv.Sat.Watches
import CircuitEquiv.Text.Decimal
import CircuitEquiv.Text.FloatText
import CircuitEquiv.Text.IntegerText
import CircuitEquiv.Text.Json
import CircuitEquiv.Text.Json.Reader
import CircuitEquiv.Text.Printable
import CircuitEquiv.Text.Quoted
