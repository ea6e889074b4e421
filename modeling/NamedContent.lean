import NamedContent.Form.Interest
import NamedContent.Form.Retrieval
import NamedContent.Interest.Factory
import NamedContent.Proofs.SortedSets
import NamedContent.Proofs.VersionOrder
import NamedContent.Session.Step
import NamedContent.Proofs.PartitionFilter
import NamedContent.Proofs.PartitionCover
import NamedContent.Proofs.PartitionInterest
import NamedContent.Proofs.SlotState
import NamedContent.Proofs.DiscoverySound
import NamedContent.Proofs.ArrivalEffects
import NamedContent.Proofs.DiscoveryRuns
import NamedContent.Proofs.ReachableDiscoveries
import NamedContent.Proofs.SoloSession
import NamedContent.Proofs.SoloSteps
import NamedContent.Proofs.DeliverySafety
import NamedContent.Proofs.Answers
import NamedContent.Proofs.TransportAnswers
import NamedContent.Proofs.LayeredAgendas
import NamedContent.Proofs.AccountedMoves
import NamedContent.Proofs.Books
import NamedContent.Proofs.BooksSteps
import NamedContent.Proofs.Progress
import NamedContent.Proofs.BooksProgress
import NamedContent.Proofs.Ledger
import NamedContent.Proofs.ExactlyOnce
import NamedContent.Proofs.SessionDiscoveries
import NamedContent.Proofs.DigestBinding
import NamedContent.Proofs.ContentMatching
import NamedContent.Proofs.ShortestForms
import NamedContent.Proofs.WireRoundTrip
import NamedContent.Proofs.InterestFields
import NamedContent.Proofs.CutForms
import NamedContent.Proofs.StoppingListeners
import NamedContent.Proofs.Agreement
import NamedContent.Proofs.CallsEnd
import NamedContent.Proofs.SessionSteps
import NamedContent.Proofs.RetrievalSight
import NamedContent.Proofs.PastInterests
import NamedContent.Proofs.HeldInterests
import NamedContent.Proofs.TendedSessions
import NamedContent.Proofs.RetrievalMoves
import NamedContent.Proofs.StoppedRetrievals
import NamedContent.Proofs.PassiveSessions
import NamedContent.Proofs.Registrations
import NamedContent.Proofs.FailedRegistrations
import NamedContent.Proofs.RegistryPairs
import NamedContent.Proofs.RegistryCalls
import NamedContent.Proofs.RegistryRefinement
import NamedContent.Proofs.UriRoundTrip
import NamedContent.Proofs.PartitionSplit
import NamedContent.Proofs.AddedConstraints
import NamedContent.Proofs.NameMatching
import NamedContent.Proofs.CoveredInterests
import NamedContent.Proofs.BackedSessions
import NamedContent.Proofs.RefreshedSessions
import NamedContent.Proofs.PartitionBorders
import NamedContent.Proofs.FilterSizes
import NamedContent.Proofs.StrayAnswers
import NamedContent.Proofs.ExcludeForms
import NamedContent.Proofs.ExcludeSets
import NamedContent.Proofs.UriGrammar
import NamedContent.Proofs.NameWalks
import NamedContent.Proofs.Counters
import NamedContent.Proofs.QuietListeners
import NamedContent.Proofs.FanOutTurns
import NamedContent.Proofs.Fates
import NamedContent.Proofs.TransportCalls
import NamedContent.Proofs.VersionComponents
import NamedContent.Proofs.FramingExact
