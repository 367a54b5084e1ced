import LoxLang.Main
import LoxLang.Proofs.Token.Partition
import LoxLang.Proofs.Parse.Order
import LoxLang.Proofs.Parse.Segments
import LoxLang.Proofs.Scoping.Faults
import LoxLang.Proofs.Matching.Recovery
import LoxLang.Proofs.Matching.Resume
import LoxLang.Proofs.Machine.ByName
import LoxLang.Proofs.Machine.Isolation
import LoxLang.Proofs.Machine.Limit
import LoxLang.Proofs.Machine.Capacity
import LoxLang.Proofs.Renaming.Session
import LoxLang.Proofs.Session.Lookup
import LoxLang.Proofs.Session.Rejected
import LoxLang.Proofs.Session.Faults
import LoxLang.Proofs.Session.Concatenation
import LoxLang.Proofs.Session.ForLoop
import LoxLang.Proofs.Session.Ids
import LoxLang.Proofs.Machine.Returned
import LoxLang.Proofs.Grouping.Run
import LoxLang.Proofs.PrefixForm.Source
import LoxLang.Proofs.Token.Respaced
import LoxLang.Proofs.Parse.End
import LoxLang.Proofs.Store.Slots
import LoxLang.Proofs.Session.Declarations
import LoxLang.Proofs.Parse.Parts
import LoxLang.Proofs.Machine.Rooted
import LoxLang.Proofs.Session.Growth
import LoxLang.Proofs.Prompt.Lines
import LoxLang.Proofs.Prompt.Turns
