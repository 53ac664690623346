import ContractHost.Config
import ContractHost.Guest.Counter
import ContractHost.Guest.HelloWorld
import ContractHost.Guest.Script
import ContractHost.Main
import ContractHost.Vm.Call
import ContractHost.Proofs.Bridge.Map
import ContractHost.Proofs.Bridge.Protocol
import ContractHost.Proofs.Bridge.Refinement
import ContractHost.Proofs.Call.Message
import ContractHost.Proofs.CapabilityReport
import ContractHost.Proofs.Checksum
import ContractHost.Proofs.Checksum.Name
import ContractHost.Proofs.Cli.ExitCode
import ContractHost.Proofs.CodeStore.Entry
import ContractHost.Proofs.CodeStore.Listing
import ContractHost.Proofs.CodeStore.Reading
import ContractHost.Proofs.CodeStore.Run
import ContractHost.Proofs.CodeStore.Tidy
import ContractHost.Proofs.CodeStore.Torn
import ContractHost.Proofs.Gas.Accounting
import ContractHost.Proofs.Gas.Charges
import ContractHost.Proofs.Gas.Exhaustion
import ContractHost.Proofs.Gas.Price
import ContractHost.Proofs.Gas.Threshold
import ContractHost.Proofs.Json.Grammar
import ContractHost.Proofs.Json.Number
import ContractHost.Proofs.Json.Numeral
import ContractHost.Proofs.Json.Parse
import ContractHost.Proofs.Json.Prefix
import ContractHost.Proofs.Json.Spelling
import ContractHost.Proofs.Json.Token
import ContractHost.Proofs.Json.Tree
import ContractHost.Proofs.Msgpack.Grammar
import ContractHost.Proofs.Msgpack.Record
import ContractHost.Proofs.Msgpack.Tree
import ContractHost.Proofs.Resolver.Cache
import ContractHost.Proofs.Resolver.Chain
import ContractHost.Proofs.State.Sharing
import ContractHost.Proofs.State.Stack
import ContractHost.Proofs.Uri
import ContractHost.Proofs.Vm.Agreement
import ContractHost.Proofs.Vm.Limit
import ContractHost.Proofs.Vm.Namespaces
import ContractHost.Proofs.Vm.Residue
import ContractHost.Proofs.Wasm.Grammar
import ContractHost.Proofs.Wasm.Walk
import ContractHost.Proofs.Wire.Codec
import ContractHost.Proofs.Wire.Named
import ContractHost.Proofs.Wire.Records
import ContractHost.Proofs.Wire.Value
