import Codegen.Proofs.ActiveCalls
import Codegen.Proofs.ItemCalls
import Codegen.Proofs.StraightLine
import Codegen.Proofs.FallThrough
import Codegen.Proofs.Occupancy
import Codegen.Proofs.Placement
import Codegen.Proofs.Pressure
import Codegen.Proofs.SavedRegisters
import Codegen.Proofs.DeadCode
import Codegen.Proofs.HomeAddresses
import Codegen.Proofs.StackAlignment
import Codegen.Proofs.ReturnPath
import Codegen.Proofs.ReturnValues
import Codegen.Proofs.Recall
import Codegen.Proofs.SlotLeases
import Codegen.Proofs.Immediates
