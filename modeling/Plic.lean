import Plic.Main
import Plic.Proofs.Compile.Capture
import Plic.Proofs.Compile.Credentials
import Plic.Proofs.Compile.Layout
import Plic.Proofs.Compile.Names
import Plic.Proofs.Token.Blanking
import Plic.Proofs.Viewer.Screen
import Plic.Proofs.Compile.Places
import Plic.Proofs.Lowering.Bounds
import Plic.Proofs.Lowering.Selection
import Plic.Proofs.Lowering.Quotients
import Plic.Proofs.Lowering.Slices
import Plic.Proofs.Token.Literals
import Plic.Proofs.Lowering.Arrays
import Plic.Proofs.Cli
import Plic.Proofs.Credentials
import Plic.Proofs.Viewer.Session
import Plic.Proofs.Viewer.Highlight
import Plic.Proofs.Lowering.Parentheses
import Plic.Proofs.Grammar.Cursor
import Plic.Proofs.Python.Outline
