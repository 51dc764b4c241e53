import ShapeGrammar.Enumeration
import ShapeGrammar.Image
import ShapeGrammar.Main
import ShapeGrammar.Proofs.Enumeration.Matching
import ShapeGrammar.Proofs.Growth.Additions
import ShapeGrammar.Proofs.Growth.Confluence
import ShapeGrammar.Proofs.Growth.Containment
import ShapeGrammar.Proofs.Growth.Exhaustion
import ShapeGrammar.Proofs.Growth.Installation
import ShapeGrammar.Proofs.Growth.Pointing
import ShapeGrammar.Proofs.Growth.Recurrence
import ShapeGrammar.Proofs.Growth.Retrieval
import ShapeGrammar.Proofs.Growth.Soundness
import ShapeGrammar.Proofs.Growth.Staleness
import ShapeGrammar.Proofs.Growth.Style
import ShapeGrammar.Proofs.Growth.Termination
import ShapeGrammar.Proofs.Main
import ShapeGrammar.Proofs.Plane.EvenOdd
import ShapeGrammar.Proofs.Scene.Triangle
import ShapeGrammar.Proofs.Search.Completeness
import ShapeGrammar.Proofs.Search.Recovery
import ShapeGrammar.Proofs.Search.Reindexing
import ShapeGrammar.Proofs.Search.Repetition
import ShapeGrammar.Proofs.Selection.Weighted
import ShapeGrammar.Proofs.Settings.Loading
import ShapeGrammar.Proofs.Shape.Identity
import ShapeGrammar.Proofs.Shape.Rotation
import ShapeGrammar.Proofs.Shape.Text
import ShapeGrammar.Proofs.Store.Nearest
import ShapeGrammar.Proofs.Store.Painting
import ShapeGrammar.Proofs.Subsets.Walks
import ShapeGrammar.Proofs.Worker
