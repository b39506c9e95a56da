import ExactSphere.BigFloat.Decimal
import ExactSphere.BigFloat.Layout
import ExactSphere.BigFloat.Order
import ExactSphere.BigFloat.Rounding
import ExactSphere.BigFloat.Scaling
import ExactSphere.Circumcenter
import ExactSphere.Crossing
import ExactSphere.Edge
import ExactSphere.Orientation
import ExactSphere.ProductDifference
import ExactSphere.Voronoi
import ExactSphere.Proofs.Tracked.Double
import ExactSphere.Proofs.Tracked.DoubleWord
import ExactSphere.Proofs.Cascade
import ExactSphere.Proofs.Orientation.Sweep
import ExactSphere.Proofs.BigFloat.Arithmetic
import ExactSphere.Proofs.Tracked.Uncertified
import ExactSphere.Proofs.BigFloat.Expression
import ExactSphere.Proofs.BigFloat.Order
import ExactSphere.Proofs.BigFloat.Program
import ExactSphere.Proofs.BigFloat.UniqueText
import ExactSphere.Proofs.Safety
import ExactSphere.Proofs.Distance.Ranking
import ExactSphere.Proofs.Radical.Reading
import ExactSphere.Proofs.Edge.Nearest
import ExactSphere.Proofs.Voronoi.Containment
import ExactSphere.Proofs.Circumcenter.Pedestals
import ExactSphere.Proofs.Circumcenter.Symmetry
import ExactSphere.Proofs.Distance.Radius
import ExactSphere.Proofs.Crossing.Ray
import ExactSphere.Proofs.DoubleWord.Reduced
import ExactSphere.Proofs.BigFloat.Scaling
import ExactSphere.Proofs.Radical.Depths
import ExactSphere.Proofs.Radical.Difference
import ExactSphere.Proofs.Alternatives
import ExactSphere.Proofs.ProductDifference
import ExactSphere.Proofs.Decimal.DigitString
