import DecisionWalk.Mutation.Random
import DecisionWalk.Script.Meaning
import DecisionWalk.Format.Png
import DecisionWalk.Format.Riff
import DecisionWalk.Random.ChaCha
import DecisionWalk.Random.Cycle
import DecisionWalk.Corpus.Seeds
import DecisionWalk.Disk.FileTree
import DecisionWalk.Command.Run
import DecisionWalk.Main
import DecisionWalk.Proofs.PngRoundTrip
import DecisionWalk.Proofs.RiffRoundTrip
import DecisionWalk.Proofs.Lockstep
import DecisionWalk.Proofs.Replaying
import DecisionWalk.Proofs.Mutations
import DecisionWalk.Proofs.Abreast
import DecisionWalk.Proofs.Serial
import DecisionWalk.Proofs.Sequential
import DecisionWalk.Proofs.Scripts
import DecisionWalk.Proofs.PngLanguage
import DecisionWalk.Proofs.RiffLanguage
import DecisionWalk.Proofs.Consistency
import DecisionWalk.Proofs.Materialized
import DecisionWalk.Proofs.Coverage
import DecisionWalk.Proofs.PngLayout
import DecisionWalk.Proofs.Corpora
import DecisionWalk.Proofs.Statuses
import DecisionWalk.Proofs.MachineFormats
import DecisionWalk.Proofs.Artifacts
import DecisionWalk.Proofs.PngSplices
import DecisionWalk.Proofs.RiffChunks
import DecisionWalk.Proofs.RiffLayout
import DecisionWalk.Proofs.RiffPieces
import DecisionWalk.Proofs.RiffCuts
import DecisionWalk.Proofs.RiffFiles
import DecisionWalk.Proofs.RiffAssembly
import DecisionWalk.Proofs.RiffSplices
import DecisionWalk.Proofs.Performing
import DecisionWalk.Proofs.Plain
import DecisionWalk.Proofs.PngAbstracts
import DecisionWalk.Proofs.Missing
import DecisionWalk.Proofs.RiffDeletions
import DecisionWalk.Proofs.PrefixFree
import DecisionWalk.Proofs.SelfReplacement
import DecisionWalk.Proofs.FixedStrings
import DecisionWalk.Proofs.LegalMutations
import DecisionWalk.Proofs.Bursts
import DecisionWalk.Proofs.Inverses
import DecisionWalk.Proofs.ChunkNames
