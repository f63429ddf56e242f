import Prevision.Order.SortedMap
import Prevision.Text.Quoted
import Prevision.Numeral.Parse
import Prevision.Numeral.Render
import Prevision.Numeral.Binary64
import Prevision.Program.Draft
import Prevision.Simplex.Solve
import Prevision.Polyhedron.DoubleDescription
import Prevision.Gamble
import Prevision.CredalSet
import Prevision.GambleMap
import Prevision.Reasoner
import Prevision.Configuration
import Prevision.Interchange
import Prevision.Numeral.Quantity
import Prevision.Proofs.Linear.Entries
import Prevision.Proofs.Simplex.Canonical
import Prevision.Proofs.Simplex.Pivoting
import Prevision.Proofs.Simplex.Termination
import Prevision.Proofs.Simplex.StandardForm
import Prevision.Proofs.Simplex.Artificials
import Prevision.Proofs.Simplex.Soundness
import Prevision.Proofs.Simplex.Decision
import Prevision.Proofs.Simplex.Budget
import Prevision.Proofs.Polyhedron.Cut
import Prevision.Proofs.Linear.Vectors
import Prevision.Proofs.Polyhedron.Enumeration
import Prevision.Proofs.Polyhedron.Descriptions
import Prevision.Proofs.Polyhedron.Conversion
import Prevision.Proofs.Program.Forms
import Prevision.Proofs.Inference.Selection
import Prevision.Proofs.Inference.Slots
import Prevision.Proofs.Inference.Rounds
import Prevision.Proofs.Inference.ConeStrip
import Prevision.Proofs.Inference.PartialLoss
import Prevision.Proofs.Polyhedron.Separation
import Prevision.Proofs.Polyhedron.Dual
import Prevision.Proofs.Linear.Independence
import Prevision.Proofs.Linear.Rank
import Prevision.Proofs.Order.Listings
import Prevision.Proofs.Model.Payoffs
import Prevision.Proofs.Model.Probabilities
import Prevision.Proofs.Model.Expectations
import Prevision.Proofs.Inference.Limits
import Prevision.Proofs.Duality.Products
import Prevision.Proofs.Duality.Representation
import Prevision.Proofs.Duality.Coordinates
import Prevision.Proofs.Inference.Sums
import Prevision.Proofs.Inference.Desirability
import Prevision.Proofs.Inference.Extension
import Prevision.Proofs.Inference.Consistency
import Prevision.Proofs.Duality.Polar
import Prevision.Proofs.Duality.Closure
import Prevision.Proofs.Inference.Weights
import Prevision.Proofs.Inference.SureLoss
import Prevision.Proofs.Inference.Losses
import Prevision.Proofs.Duality.Alternative
import Prevision.Proofs.Duality.Support
import Prevision.Proofs.Inference.Prices
import Prevision.Proofs.Inference.Threshold
import Prevision.Proofs.Duality.Envelope
import Prevision.Proofs.Polyhedron.Hull
import Prevision.Proofs.Polyhedron.Facet
import Prevision.Proofs.Polyhedron.Redundancy
import Prevision.Proofs.Duality.RoundTrip
import Prevision.Proofs.Duality.Reduction
import Prevision.Proofs.Duality.Agreement
import Prevision.Proofs.Polyhedron.Relative
import Prevision.Proofs.Polyhedron.Dropping
import Prevision.Proofs.Polyhedron.Minimal
import Prevision.Proofs.Polyhedron.Irredundant
import Prevision.Proofs.Polyhedron.Uniqueness
import Prevision.Proofs.Linear.Parallel
import Prevision.Proofs.Model.Maps
import Prevision.Proofs.Inference.Images
import Prevision.Proofs.Inference.LargerLimits
import Prevision.Proofs.Inference.Answers
import Prevision.Proofs.Inference.Cylinders
import Prevision.Proofs.Inference.Assessments
import Prevision.Proofs.Inference.OneAssessment
import Prevision.Proofs.Inference.Coherence
import Prevision.Proofs.Duality.Charge
import Prevision.Proofs.Inference.Records
import Prevision.Proofs.Inference.Failures
import Prevision.Proofs.Inference.MappedCones
import Prevision.Proofs.Polyhedron.TwoConversions
import Prevision.Proofs.Polyhedron.FacetRows
import Prevision.Proofs.Numeral.Grammar
import Prevision.Proofs.Numeral.Rounding
import Prevision.Proofs.Model.Directions
import Prevision.Proofs.Model.Linearity
import Prevision.Proofs.Model.Conditioning
import Prevision.Proofs.Inference.Views
import Prevision.Proofs.Inference.Changes
import Prevision.Proofs.Model.Arithmetic
import Prevision.Proofs.Model.Normalization
import Prevision.Proofs.Model.Spread
import Prevision.Proofs.Model.CoherentExpectations
import Prevision.Proofs.Inference.WholeCounts
import Prevision.Proofs.Polyhedron.Stages
import Prevision.Proofs.Polyhedron.Faces
import Prevision.Proofs.Polyhedron.Adjacency
import Prevision.Proofs.Simplex.Phases
import Prevision.Proofs.Simplex.Dependence
