import BinCodec.Datum.Display
import BinCodec.Datum.Feed
import BinCodec.Derivation
import BinCodec.Flat.Batch
import BinCodec.Packer
import BinCodec.Partition
import BinCodec.Persist
import BinCodec.Script
import BinCodec.Proofs.Classification
import BinCodec.Proofs.History
import BinCodec.Proofs.PackedMaps
import BinCodec.Proofs.Reordering
import BinCodec.Proofs.Equality
import BinCodec.Proofs.ScriptImage
import BinCodec.Proofs.Spelling
import BinCodec.Proofs.DistinctKeys
import BinCodec.Proofs.KeyPlacement
import BinCodec.Proofs.CanonicalMaps
import BinCodec.Proofs.ClassifiedKeys
import BinCodec.Proofs.FloatOrder
import BinCodec.Proofs.ScalarKeys
import BinCodec.Proofs.CborHeads
import BinCodec.Proofs.ReadingBack
import BinCodec.Proofs.OpaqueBlobs
import BinCodec.Proofs.KeyRuns
import BinCodec.Proofs.Association
import BinCodec.Proofs.Hashing
import BinCodec.Proofs.ScriptFailure
import BinCodec.Proofs.FlatReading
import BinCodec.Proofs.SizeHeaders
import BinCodec.Proofs.SmallestForms
import BinCodec.Proofs.Widening
import BinCodec.Proofs.Coercion
import BinCodec.Proofs.Retraction
import BinCodec.Proofs.SymbolDerivation
import BinCodec.Proofs.Resumption
