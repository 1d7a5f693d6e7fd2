import QueryTree.Condition.Combine
import QueryTree.Condition.Lemmas
import QueryTree.Distinct
import QueryTree.Payload.Decode
import QueryTree.Payload.Text
import QueryTree.Walk.Editor
import QueryTree.Walk.Visitors
import QueryTree.Proofs.GroupHistory
import QueryTree.Proofs.Reading
import QueryTree.Proofs.Decoding
import QueryTree.Proofs.JoinShape
import QueryTree.Proofs.OlderPayloads
import QueryTree.Proofs.JoinRows
import QueryTree.Proofs.Canonical
import QueryTree.Proofs.TextRoundTrip
import QueryTree.Proofs.SurplusMembers
import QueryTree.Proofs.Equality
import QueryTree.Proofs.EqualWalks
import QueryTree.Proofs.EqualArguments
import QueryTree.Proofs.EqualReadings
import QueryTree.Proofs.Congruence
import QueryTree.Proofs.SoundOperations
import QueryTree.Proofs.Reached
import QueryTree.Proofs.Combination
import QueryTree.Proofs.Inversion
import QueryTree.Proofs.SlotWalks
import QueryTree.Proofs.Renaming
import QueryTree.Proofs.Replacement
import QueryTree.Proofs.GroupReading
import QueryTree.Proofs.ReplacingBack
import QueryTree.Proofs.PayloadLayout
import QueryTree.Proofs.PreOrder
import QueryTree.Proofs.DecodeFaults
import QueryTree.Proofs.Spelling
import QueryTree.Proofs.AcceptedConditions
import QueryTree.Proofs.InvertedWalks
import QueryTree.Proofs.IntegerForms
import QueryTree.Proofs.EditedWalks
import QueryTree.Proofs.Gathering
import QueryTree.Proofs.CursorRuns
