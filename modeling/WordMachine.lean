import WordMachine.Intrinsic.CallSite
import WordMachine.Machine.Basic
import WordMachine.Memory.Lemmas
import WordMachine.Proofs.AdditionForms
import WordMachine.Proofs.Bounds
import WordMachine.Proofs.CallAccesses
import WordMachine.Proofs.CallLog
import WordMachine.Proofs.CarryBit
import WordMachine.Proofs.CarryEffect
import WordMachine.Proofs.ChainAccesses
import WordMachine.Proofs.ChainRefinement
import WordMachine.Proofs.Filtering
import WordMachine.Proofs.History
import WordMachine.Proofs.LimbWidth
import WordMachine.Proofs.LogRun
import WordMachine.Proofs.MachineRun
import WordMachine.Proofs.MixedChain
import WordMachine.Proofs.OperandBits
import WordMachine.Proofs.PairEffect
import WordMachine.Proofs.Regions
import WordMachine.Proofs.Reordering
import WordMachine.Proofs.Repetition
import WordMachine.Proofs.Sum128
import WordMachine.Proofs.Truncation
import WordMachine.Proofs.WrittenForms
import WordMachine.Recorder
import WordMachine.SuiteOptions
