import Treeprint.Persistence.Reading
import Treeprint.Persistence.Writing
import Treeprint.Ranking
import Treeprint.Session.Choice
import Treeprint.Session.Reshape
import Treeprint.Session.Run
import Treeprint.Proofs.Location
import Treeprint.Proofs.Fresh
import Treeprint.Proofs.Coherence
import Treeprint.Proofs.Locality
import Treeprint.Proofs.Transparency
import Treeprint.Proofs.Invalidation
import Treeprint.Proofs.Creation
import Treeprint.Proofs.Folding
import Treeprint.Proofs.Following
import Treeprint.Proofs.Ways
import Treeprint.Proofs.Surveying
import Treeprint.Proofs.Sightings
import Treeprint.Proofs.Scanning
import Treeprint.Proofs.Composing
import Treeprint.Proofs.Completeness
import Treeprint.Proofs.Loops
import Treeprint.Proofs.Patterns
import Treeprint.Proofs.Filtering
import Treeprint.Proofs.Scalars
import Treeprint.Proofs.Shapes
import Treeprint.Proofs.Stored
import Treeprint.Proofs.Keeping
import Treeprint.Proofs.Recalling
import Treeprint.Proofs.Inventory
import Treeprint.Proofs.Joining
import Treeprint.Proofs.Comparing
import Treeprint.Proofs.Touching
import Treeprint.Proofs.Detection
import Treeprint.Proofs.Looking
import Treeprint.Proofs.Stopping
import Treeprint.Proofs.Routes
import Treeprint.Proofs.Reporting
import Treeprint.Proofs.Eviction
import Treeprint.Proofs.History
import Treeprint.Proofs.Keys
import Treeprint.Proofs.Relocation
import Treeprint.Proofs.Pruning
import Treeprint.Proofs.Asking
import Treeprint.Proofs.Indexing
import Treeprint.Proofs.Coinciding
import Treeprint.Proofs.Literals
import Treeprint.Proofs.Trees
import Treeprint.Proofs.Decoding
import Treeprint.Proofs.Fields
import Treeprint.Proofs.Loading
import Treeprint.Proofs.Restyling
import Treeprint.Proofs.Spoiling
import Treeprint.Proofs.Finding
import Treeprint.Proofs.Ordering
import Treeprint.Proofs.Including
import Treeprint.Proofs.Renewing
import Treeprint.Proofs.Describing
import Treeprint.Proofs.Pooling
import Treeprint.Proofs.Blindness
import Treeprint.Proofs.Handing
import Treeprint.Proofs.Sessions
