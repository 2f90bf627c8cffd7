import Wasmtime.Resources.Generations
import Wasmtime.Resources.BorrowScopes
import Wasmtime.Concurrent.ErrorContextNew
import Wasmtime.Concurrent.TableFailures
import Wasmtime.Environ.AddressMap
import Wasmtime.Environ.NameMap
import Wasmtime.Environ.StackMapRoundTrip
import Wasmtime.Environ.BuiltTypes
import Wasmtime.Environ.AbiLayout
import Wasmtime.Cranelift.DivConstSigned
import Wasmtime.Cranelift.ScopedHashMap
import Wasmtime.Cranelift.Extraction
import Wasmtime.Winch.HeapAddress
import Wasmtime.Vm.Wakeups
import Wasmtime.Vm.Faults
import Wasmtime.Vm.SlabLayout
import Wasmtime.Vm.PurgeModule
import Wasmtime.Vm.AtomicAddr
import Wasmtime.Gc.ArrayAlloc
import Wasmtime.Gc.Heap
import Wasmtime.Gc.DrcRun
import Wasmtime.Slab.Runs
import Wasmtime.Gc.RootScopes
import Wasmtime.Wasi.ReadDirectory
import Wasmtime.Http.BodyRuns
import Wasmtime.Component.Lifting
import Wasmtime.Fact.Variants
import Wasmtime.Concurrent.Buffers
import Wasmtime.Resources.Failures
import Wasmtime.Unwinder.Lookup
