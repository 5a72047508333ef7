import Wirescript.Netlist.Render
import Wirescript.Proofs.Agreement
import Wirescript.Proofs.Deeds
import Wirescript.Proofs.EventStores
import Wirescript.Proofs.Filling
import Wirescript.Proofs.Inert
import Wirescript.Proofs.Innermost
import Wirescript.Proofs.Nesting
import Wirescript.Proofs.Passing
import Wirescript.Proofs.Postfix
import Wirescript.Proofs.Recursion
import Wirescript.Proofs.Relowering
import Wirescript.Proofs.Sharing
import Wirescript.Proofs.Structured
import Wirescript.Proofs.Symbols
import Wirescript.Proofs.Truthful
import Wirescript.Tree.Outline
