import AccessTree.Bus
import AccessTree.MatchArgs.Json
import AccessTree.Outline
import AccessTree.Proofs.ArenaSound
import AccessTree.Proofs.Kinship
import AccessTree.Proofs.MoreSteps
import AccessTree.Proofs.RegistryUpkeep
import AccessTree.Proofs.SweepSearch
import AccessTree.Registry.Path
import AccessTree.Registry.Update
import AccessTree.Registry.View
import AccessTree.Role.Widget
import AccessTree.Settings.File
import AccessTree.Proofs.Limits
import AccessTree.Proofs.Containment
import AccessTree.Proofs.WalkSteps
import AccessTree.Proofs.ChangingTree
import AccessTree.Proofs.ChangingSearch
import AccessTree.Proofs.Shrinking
import AccessTree.Proofs.ShrinkingSearch
import AccessTree.Proofs.Lifetimes
import AccessTree.Proofs.Losses
import AccessTree.Proofs.FirstRoot
import AccessTree.Proofs.Requests
import AccessTree.Proofs.WalkPoints
import AccessTree.Proofs.LosingWalks
import AccessTree.Proofs.LosingSweep
import AccessTree.Proofs.LosingSearch
import AccessTree.Proofs.Warnings
import AccessTree.Proofs.SweepDepth
import AccessTree.Proofs.BackwardDepth
import AccessTree.Proofs.Refusals
import AccessTree.Proofs.Counting
import AccessTree.Proofs.Moves
import AccessTree.Proofs.Destruction
import AccessTree.Proofs.Census
import AccessTree.Proofs.RuleMeaning
import AccessTree.Proofs.Segments
import AccessTree.Proofs.AttributeText
import AccessTree.Proofs.BitArrays
import AccessTree.Proofs.StateSets
import AccessTree.Proofs.RuleArguments
import AccessTree.Proofs.RuleSpelling
import AccessTree.Proofs.SweepRepeats
import AccessTree.Proofs.WiderScopes
import AccessTree.Proofs.Endings
import AccessTree.Proofs.OutlineText
import AccessTree.Proofs.PlainOutline
import AccessTree.Proofs.LongArrays
