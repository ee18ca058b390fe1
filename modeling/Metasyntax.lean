import Metasyntax.Cache.Shelf
import Metasyntax.Node.Check
import Metasyntax.Session
import Metasyntax.Settings
import Metasyntax.Proofs.Depth
import Metasyntax.Proofs.Transparency
import Metasyntax.Proofs.Meaning
import Metasyntax.Proofs.Runs
import Metasyntax.Proofs.Advance
import Metasyntax.Proofs.Derivations
import Metasyntax.Proofs.Acceptance
import Metasyntax.Proofs.Conformity
import Metasyntax.Proofs.Faithful
import Metasyntax.Proofs.Lexis
import Metasyntax.Proofs.Unambiguity
import Metasyntax.Proofs.Reproduction
import Metasyntax.Proofs.Rollback
import Metasyntax.Proofs.Halting
import Metasyntax.Proofs.Rulelists
import Metasyntax.Proofs.Scanning
import Metasyntax.Proofs.Inclusion
import Metasyntax.Proofs.Invalidation
import Metasyntax.Proofs.Handles
import Metasyntax.Proofs.Holdings
import Metasyntax.Proofs.Upkeep
import Metasyntax.Proofs.Retention
import Metasyntax.Proofs.Influence
import Metasyntax.Proofs.Reconfiguration
import Metasyntax.Proofs.Resolution
import Metasyntax.Proofs.Recency
import Metasyntax.Proofs.Interning
import Metasyntax.Proofs.Likeness
import Metasyntax.Proofs.Joining
import Metasyntax.Proofs.Batches
import Metasyntax.Proofs.Binding
import Metasyntax.Proofs.Rereading
import Metasyntax.Proofs.Readership
import Metasyntax.Proofs.Ordering
import Metasyntax.Proofs.HostedProductions
import Metasyntax.Proofs.SelfHosting
import Metasyntax.Proofs.Headway
import Metasyntax.Proofs.Translation
import Metasyntax.Proofs.Completion
import Metasyntax.Proofs.Growth
import Metasyntax.Proofs.LongestMatch
import Metasyntax.Proofs.Additions
import Metasyntax.Proofs.Alternatives
import Metasyntax.Proofs.Precedence
import Metasyntax.Proofs.Refusals
import Metasyntax.Proofs.Grouping
import Metasyntax.Proofs.Pairing
import Metasyntax.Proofs.Lockstep
import Metasyntax.Proofs.Levels
import Metasyntax.Proofs.Portions
import Metasyntax.Proofs.Renewal
import Metasyntax.Proofs.Splitting
import Metasyntax.Proofs.Causes
import Metasyntax.Proofs.Imports
import Metasyntax.Proofs.Residue
import Metasyntax.Proofs.Omissions
import Metasyntax.Proofs.Outlines
import Metasyntax.Proofs.Counts
import Metasyntax.Proofs.Numerals
import Metasyntax.Proofs.CacheControl
import Metasyntax.Proofs.Descendants
import Metasyntax.Proofs.Lossless
