import PeerScript.Main
import PeerScript.Listeners
import PeerScript.Number.Reading
import PeerScript.Summary
import PeerScript.Store.Handles
import PeerScript.Machine.Workbench
import PeerScript.Proofs.Lexing
import PeerScript.Proofs.Spelling
import PeerScript.Proofs.Reading
import PeerScript.Proofs.RoundTrip
import PeerScript.Proofs.Reply
import PeerScript.Proofs.Running
import PeerScript.Proofs.Underrun
import PeerScript.Proofs.Reception
import PeerScript.Proofs.Alike
import PeerScript.Proofs.Alike.Operators
import PeerScript.Proofs.Alike.Parsing
import PeerScript.Proofs.Alike.Stores
import PeerScript.Proofs.Alike.Machines
import PeerScript.Proofs.Alike.Runs
import PeerScript.Proofs.Alike.Answers
import PeerScript.Proofs.Globals
import PeerScript.Proofs.Networks
import PeerScript.Proofs.Sittings
import PeerScript.Proofs.Isolation
import PeerScript.Proofs.Exchange
import PeerScript.Proofs.Exchange.Endings
import PeerScript.Proofs.Exchange.Pairing
import PeerScript.Proofs.Marks
import PeerScript.Proofs.Moves
import PeerScript.Proofs.Moves.Follow
import PeerScript.Proofs.Moves.Tasks
import PeerScript.Proofs.Moves.Scripts
import PeerScript.Proofs.Closures
import PeerScript.Proofs.Closures.Lives
import PeerScript.Proofs.Messages
import PeerScript.Proofs.Connections
import PeerScript.Proofs.Steps.Ending
import PeerScript.Proofs.Translation
import PeerScript.Proofs.Depth
import PeerScript.Proofs.Shapes
import PeerScript.Proofs.Folding
import PeerScript.Proofs.Visibility.Scripts
import PeerScript.Proofs.Grammar
import PeerScript.Proofs.Homes
import PeerScript.Proofs.Sources
import PeerScript.Proofs.Twins
import PeerScript.Proofs.Twins.Runs
import PeerScript.Proofs.Policies
import PeerScript.Proofs.Stops
import PeerScript.Proofs.Steps.Balance
import PeerScript.Proofs.Locality
import PeerScript.Proofs.Locality.Networks
import PeerScript.Proofs.Stacks
import PeerScript.Proofs.Stacks.Runs
import PeerScript.Proofs.Printing
import PeerScript.Proofs.Printing.Parsing
import PeerScript.Proofs.Printing.Inverse
import PeerScript.Proofs.Incidents
import PeerScript.Proofs.Incidents.Views
import PeerScript.Proofs.Incidents.Ledgers
import PeerScript.Proofs.Incidents.Regular
import PeerScript.Proofs.Incidents.Quiet
import PeerScript.Proofs.Unbound
import PeerScript.Proofs.Unbound.Runs
import PeerScript.Proofs.Unbound.Networks
import PeerScript.Proofs.Unbound.Objects
import PeerScript.Proofs.Unbound.Steps
import PeerScript.Proofs.Unbound.Servers
import PeerScript.Proofs.Unbound.Histories
import PeerScript.Proofs.Layout.Edits
import PeerScript.Proofs.Utf8
import PeerScript.Proofs.Framing
import PeerScript.Proofs.Conversations
import PeerScript.Proofs.Conversations.Histories
import PeerScript.Proofs.Conversations.Ends
import PeerScript.Proofs.Conversations.Standing
import PeerScript.Proofs.Shorthands
import PeerScript.Proofs.Responses
import PeerScript.Proofs.Bookkeeping
import PeerScript.Proofs.Subscriptions
import PeerScript.Proofs.Losses
import PeerScript.Proofs.Refusals
import PeerScript.Proofs.Shorthands.Calls
import PeerScript.Proofs.Joining
import PeerScript.Proofs.Consoles
import PeerScript.Proofs.Consoles.Lines
import PeerScript.Proofs.Diagnostics
import PeerScript.Proofs.Registrations
import PeerScript.Proofs.Tokens
import PeerScript.Proofs.Tokens.Spans
import PeerScript.Proofs.Integers
import PeerScript.Proofs.Equality
import PeerScript.Proofs.Builtins
import PeerScript.Proofs.Handles
