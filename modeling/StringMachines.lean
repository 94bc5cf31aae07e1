import StringMachines.Erasing.Derivation
import StringMachines.Main
import StringMachines.Transducer.Computation
import StringMachines.Proofs.Pattern.Table
import StringMachines.Proofs.Pattern.FullMatch
import StringMachines.Proofs.Pattern.Backtracking
import StringMachines.Proofs.Pattern.Shape
import StringMachines.Proofs.Pattern.ViablePrefix
import StringMachines.Proofs.Erasing.Acceptance
import StringMachines.Proofs.Transducer.Enumeration
import StringMachines.Proofs.Pattern.Display
import StringMachines.Proofs.Pattern.Grammar
import StringMachines.Proofs.Search.Recursion
import StringMachines.Proofs.Erasing.Recursion
import StringMachines.Proofs.Transducer.Visits
import StringMachines.Proofs.Transducer.Grouping
import StringMachines.Proofs.Transducer.Termination
import StringMachines.Proofs.Transducer.Sequential
import StringMachines.Proofs.Transducer.Recursion
import StringMachines.Proofs.Transducer.Caps
import StringMachines.Proofs.Search.Turns
import StringMachines.Proofs.Erasing.Turns
import StringMachines.Proofs.Erasing.Children
import StringMachines.Proofs.Erasing.SingleCharacters
import StringMachines.Proofs.Pattern.ExtremeLevels
import StringMachines.Proofs.Pattern.Concatenation
import StringMachines.Proofs.Pattern.Tiling
import StringMachines.Proofs.Ranking.StableSort
import StringMachines.Proofs.Transducer.Construction
import StringMachines.Proofs.CommandLine.Verdicts
import StringMachines.Proofs.Pattern.Repeats
import StringMachines.Proofs.Transducer.TransitionText
import StringMachines.Proofs.CommandLine.Inputs
import StringMachines.Proofs.Word.Scanning
import StringMachines.Proofs.Erasing.Cursor
