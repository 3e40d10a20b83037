import ContentChunks.Proofs.Containment
import ContentChunks.Proofs.Failing
import ContentChunks.Proofs.GivingUp
import ContentChunks.Proofs.Judging
import ContentChunks.Proofs.LineBreaks
import ContentChunks.Proofs.Pieces
import ContentChunks.Proofs.Presence
import ContentChunks.Proofs.Raising
import ContentChunks.Proofs.Ranges
import ContentChunks.Proofs.ReadingBack
import ContentChunks.Proofs.Refusing
import ContentChunks.Proofs.RoundTrip
import ContentChunks.Proofs.Scoring
import ContentChunks.Proofs.Hex
import ContentChunks.Proofs.Sessions
import ContentChunks.Proofs.Sounds
import ContentChunks.Proofs.Lossy
import ContentChunks.Proofs.Words
import ContentChunks.Proofs.Searching
import ContentChunks.Proofs.Picking
import ContentChunks.Proofs.Interning
import ContentChunks.Proofs.KeysApart
import ContentChunks.Proofs.Hashing
