import Stencil.Main
import Stencil.Proofs.Checked.Generate
import Stencil.Proofs.Parameters
import Stencil.Proofs.Resolution
import Stencil.Proofs.Linking
import Stencil.Proofs.Catalogs
import Stencil.Proofs.Failures
import Stencil.Proofs.Openers
import Stencil.Proofs.Locations
import Stencil.Proofs.Dependence
import Stencil.Proofs.Additions
import Stencil.Proofs.Orders
import Stencil.Proofs.Numbering
import Stencil.Proofs.Spelling
import Stencil.Proofs.Statements
import Stencil.Proofs.Closures
import Stencil.Proofs.Mentions
import Stencil.Proofs.Naming
import Stencil.Proofs.Covering
import Stencil.Proofs.Drafts
import Stencil.Proofs.Outlines
import Stencil.Proofs.RawText
import Stencil.Proofs.Clipping
import Stencil.Proofs.Excision
import Stencil.Proofs.Shifting
import Stencil.Proofs.Locality
import Stencil.Proofs.Positions
import Stencil.Proofs.Scanning
import Stencil.Proofs.Publishing
import Stencil.Proofs.Ballots
import Stencil.Proofs.Bindings
import Stencil.Proofs.Values
import Stencil.Proofs.Typing
import Stencil.Proofs.Literals
import Stencil.Proofs.Runes
import Stencil.Proofs.Containment
import Stencil.Proofs.Indents
import Stencil.Proofs.Verbatim
import Stencil.Proofs.Nesting
import Stencil.Proofs.Preorder
import Stencil.Proofs.Attributes
import Stencil.Proofs.Collection
