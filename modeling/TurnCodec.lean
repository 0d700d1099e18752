import TurnCodec.Main
import TurnCodec.Response.Builders
import TurnCodec.Response.Equality
import TurnCodec.Proofs.Codec
import TurnCodec.Proofs.Wire.Canonical
import TurnCodec.Proofs.Wire.Contents
import TurnCodec.Proofs.Wire.RoundTrip
import TurnCodec.Proofs.Cbor.Lacking
import TurnCodec.Proofs.Cbor.Denotation
import TurnCodec.Proofs.Payload
import TurnCodec.Proofs.Limits
import TurnCodec.Proofs.Wire.Acceptance
import TurnCodec.Cbor.Builder
import TurnCodec.Proofs.Cbor.Builder
import TurnCodec.Proofs.Gates
import TurnCodec.Proofs.Missing
import TurnCodec.Proofs.Settled
import TurnCodec.Proofs.Tables
import TurnCodec.Proofs.Wire.Visible
import TurnCodec.Proofs.Raised
import TurnCodec.Proofs.Wire.Comparison
import TurnCodec.Proofs.Reports
import TurnCodec.Proofs.Guards
import TurnCodec.Proofs.Encodable
import TurnCodec.Proofs.Wire.Depth
import TurnCodec.Proofs.Cbor.Gap
import TurnCodec.Proofs.Wire.Arguments
import TurnCodec.Proofs.Overwritten
import TurnCodec.Proofs.History
import TurnCodec.Proofs.Offenders
import TurnCodec.Proofs.Order
import TurnCodec.Proofs.Builders
import TurnCodec.Proofs.Cli.Grammar
import TurnCodec.Proofs.Cli.Exit
import TurnCodec.Proofs.Logging
